/-
# The program

The thin layer around `Invocation.run`: the arguments of the process are
read, what the paths among them lead to is taken into a disk, the invocation
is carried out on that disk, and what it changed is written back.
-/
import SealedModules.Command.Arguments

namespace SealedModules.Program

/-- Where a path lies on the disk. -/
def locationOf (path : String) : Location :=
  (Path.segments path).filter fun name => name ≠ "" ∧ name ≠ "."

/-- The disk with a node and the directories it lies in, unless there is
something at the location. -/
def place (disk : Disk) (location : Location) (node : Node) : Disk :=
  if (disk.node? location).isSome then disk else disk.set location node

/-- A file, or a directory with everything in it, taken into a disk. -/
partial def capture (path : String) (disk : Disk) : IO Disk := do
  let file := (← IO.currentDir) / path
  let location := locationOf file.toString
  if ← file.isDir then
    let disk := place disk location .empty
    (← file.readDir).foldlM (fun disk entry => capture entry.path.toString disk) disk
  else if ← file.pathExists then
    return place disk location (.file (← IO.FS.readBinFile file).toList)
  else
    match file.parent with
    | some parent =>
      if ← parent.isDir then return place disk (locationOf parent.toString) .empty
      else return disk
    | none => return disk

/-- The disk with what an invocation can see of the real one. -/
def snapshot (invocation : Invocation) : IO Disk := do
  let current := locationOf (← IO.currentDir).toString
  let empty : Disk := { root := .empty, current }
  invocation.paths.foldlM (fun disk path => capture path disk) (place empty current .empty)

/-- Whether a disk has a file with some contents at a location. -/
def hasFile (disk : Disk) (location : Location) (contents : Bytes) : Bool :=
  match disk.node? location with
  | some (.file found) => found = contents
  | _ => false

/-- The files and directories that are not as they were before, written out. -/
def writeBack (before after : Disk) : IO Unit := do
  for (location, node) in after.root.descendants do
    let path := "/" ++ Path.ofNames location
    match node with
    | .directory _ =>
      if (before.node? location).isNone then IO.FS.createDirAll path
    | .file contents =>
      if !hasFile before location contents then
        IO.FS.writeBinFile path ⟨contents.toArray⟩

/-- An invocation carried out on the real disk: the status of the process. -/
def carryOut (invocation : Invocation) : IO UInt32 := do
  let before ← snapshot invocation
  let run := invocation.run before
  writeBack before run.disk
  (← IO.getStdout).putStr run.printed
  match run.outcome with
  | .ok () => return 0
  | .error error =>
    IO.eprintln s!"Error: {error.message}"
    for cause in error.causes do
      IO.eprintln s!"    {cause}"
    return 1

end SealedModules.Program

/-- The program. -/
def main (arguments : List String) : IO UInt32 :=
  match SealedModules.Arguments.invocation? arguments with
  | some invocation => SealedModules.Program.carryOut invocation
  | none => do
    IO.eprintln SealedModules.Arguments.usage
    return 2
