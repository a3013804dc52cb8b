/-
# Building a pack

The command that packs the files of a directory, sealing on request those
that are not sealed yet.  The directory is read before the pack is made, so
the pack may lie in the directory.
-/
import SealedModules.Asset.Index
import SealedModules.Command.Report

namespace SealedModules.Command

/-- The files of a directory with their asset paths, in the order of those. -/
def collectDirectory (disk : Disk) (directory : String) :
    Except CommandError (List (String × Bytes)) :=
  match AssetIndex.ofDirectory disk directory with
  | .error fault => .error (.ofFault "index" directory fault)
  | .ok index =>
    match index.collect disk with
    | .error fault =>
      .error (.because (AssetError.failed fault).message fault.message)
    | .ok files => .ok files

/-- A file sealed unless it is sealed already, and whether that was done. -/
def sealEntry (sealer : Sealer) (file : String × Bytes) :
    Except CommandError ((String × Bytes) × Bool) :=
  if sealer.classifyWhole file.2 = .sealedModule then .ok (file, false)
  else
    match sealer.wrap file.2 with
    | .error error => .error (.because s!"cannot seal '{file.1}'" error.message)
    | .ok bytes => .ok ((file.1, bytes), true)

/-- The files as they are packed, and how many of them were sealed. -/
def prepare (settings : Settings) (sealing : Bool) (files : List (String × Bytes)) :
    Except CommandError (List (String × Bytes) × Nat) :=
  if sealing then do
    let prepared ← files.mapM (sealEntry settings.sealingSealer)
    return (prepared.map (·.1), (prepared.filter (·.2)).length)
  else .ok (files, 0)

/-- A pack written to a file, and a line that says so. -/
def writePack (disk : Disk) (output : String) (files : List (String × Bytes)) (sealedCount : Nat) :
    CommandRun :=
  match disk.create output with
  | .error fault => .failed disk (.ofFault "create" output fault)
  | .ok (location, disk) =>
    match Pack.writeTo (disk.output location) files with
    | (.error fault, target) =>
      .failed (disk.store location target.contents) { message := fault.message }
    | (.ok size, target) =>
      .done (disk.store location target.contents)
        (s!"Packed {files.length} assets ({sealedCount} sealed) into {output} " ++
          s!"({size} bytes)\n")

/-- The command that packs a directory. -/
def packDirectory (settings : Settings) (directory output : String) (sealing : Bool)
    (disk : Disk) : CommandRun :=
  match collectDirectory disk directory with
  | .error error => .failed disk error
  | .ok files =>
    match prepare settings sealing files with
    | .error error => .failed disk error
    | .ok (files, sealedCount) => writePack disk output files sealedCount

end SealedModules.Command
