/-
# Listing and extracting a pack

The command that lists the entries of a pack or writes them as files below a
directory.  An entry's path is trusted only if it stays below: it may not
start at the root or go up anywhere, and has to name something.
-/
import SealedModules.Asset.Pack
import SealedModules.Command.Report

namespace SealedModules.Command

/-- The names among components that stay below where they start. -/
def namesBelow? : List Path.Component → Option (List String)
  | [] => some []
  | .name text :: rest => (namesBelow? rest).map (text :: ·)
  | .here :: rest => namesBelow? rest
  | .root :: _ => none
  | .parent :: _ => none

/-- The names that an entry's path leads through, if it may be extracted. -/
def safeNames (path : String) : Except CommandError (List String) :=
  match namesBelow? (Path.components path) with
  | none => .error { message := s!"refusing to extract '{path}' outside the output directory" }
  | some [] => .error { message := "empty asset path in pack" }
  | some names => .ok names

/-- One entry written below a directory, with the directories it lies in. -/
def extractEntry (disk : Disk) (directory : String) (entry : String × Bytes) :
    Except CommandError Unit × Disk :=
  match safeNames entry.1 with
  | .error error => (.error error, disk)
  | .ok names =>
    let target := Path.append directory (Path.ofNames names)
    match disk.ensureParents target with
    | (.error fault, disk) => (.error { message := fault.message }, disk)
    | (.ok (), disk) =>
      match disk.writeFile target entry.2 with
      | (.error fault, disk) => (.error (.ofFault "write" target fault), disk)
      | (.ok (), disk) => (.ok (), disk)

/-- Entries written in order, up to the first that fails. -/
def extractEntries (directory : String) :
    List (String × Bytes) → Disk → Except CommandError Unit × Disk
  | [], disk => (.ok (), disk)
  | entry :: entries, disk =>
    match extractEntry disk directory entry with
    | (.error error, disk) => (.error error, disk)
    | (.ok (), disk) => extractEntries directory entries disk

/-- The list of a pack's entries. -/
def listing (entries : List (String × Bytes)) : String :=
  String.join (entries.map fun entry =>
      Text.alignRight 10 (toString entry.2.length) ++ "  " ++ entry.1 ++ "\n") ++
    s!"{entries.length} entries\n"

/-- The command that lists or extracts a pack. -/
def unpackFile (pack : String) (directory : Option String) (listOnly : Bool) (disk : Disk) :
    CommandRun :=
  match disk.fileBytes pack with
  | .error fault => .failed disk (.ofFault "read" pack fault)
  | .ok bytes =>
    match Pack.read bytes with
    | .error error => .failed disk { message := error.message }
    | .ok entries =>
      if listOnly then .done disk (listing entries)
      else
        match directory with
        | none =>
          .failed disk { message := "an output directory is required unless --list is given" }
        | some directory =>
          match extractEntries directory entries disk with
          | (.error error, disk) => .failed disk error
          | (.ok (), disk) =>
            .done disk s!"Extracted {entries.length} assets into {directory}\n"

end SealedModules.Command
