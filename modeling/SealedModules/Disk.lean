/-
# Disks

A disk is a tree of files together with the directory that relative paths
start from.  There are no links, so every path leads along one way.

`walk` follows a path: each step has to start from a directory, a dot stays,
two dots go up, and a name goes down whether or not there is anything.  The
operations below decide what the end of the way has to be and answer with
the fault that the operating system gives.

What is written may not fit, and a file that was written may fail to be
closed.  How it goes at a place is told by its `Limit`, which belongs to the
place and not to what is there, so that no operation changes it.  A file that
was opened tells its length and is read without fail.
-/
import SealedModules.Disk.Node
import SealedModules.Disk.Path
import SealedModules.Fault
import SealedModules.Stream.Output
import SealedModules.Stream.Reader
import SealedModules.Text.Utf8

namespace SealedModules

/-- What holds back the writing of a file, wherever it comes from. -/
structure Limit where
  /-- how many bytes the file takes once it is opened, if bounded -/
  room : Option Nat := none
  /-- what closing the file fails with, if it does -/
  closing : Option Fault := none
deriving DecidableEq, Repr

/-- A file system, its current directory, and the limits of its places. -/
structure Disk where
  root : Node
  current : Location
  limits : Location → Limit := fun _ => {}

namespace Disk

/-- The longest name, in bytes. -/
def maxName : Nat := 255

/-- The first length, in bytes, at which a whole path is too long. -/
def maxPath : Nat := 4096

/-- What a directory says its length is. -/
def directoryLength : Nat := 4096

/-- A disk with nothing but its current directory, which lies among temporary
ones. -/
def scratch : Disk where
  root := .directory [("tmp", .directory [("work", .empty)])]
  current := ["tmp", "work"]

/-! ## Locations -/

/-- What there is at a location. -/
def node? (d : Disk) (location : Location) : Option Node := d.root.at? location

/-- The disk with a node put at a location. -/
def set (d : Disk) (location : Location) (node : Node) : Disk :=
  { d with root := d.root.put location node }

/-- Where names lead from a place, given by the names that lead to it, the
innermost first, and by what is there. -/
def walkFrom (d : Disk) : (here : List String) → (found : Option Node) → List String →
    Except Fault Location
  | here, _, [] => .ok here.reverse
  | _, none, _ :: _ => .error .noEntry
  | here, some node, name :: names =>
    if !node.isDirectory then .error .notADirectory
    else if name = "" ∨ name = "." then walkFrom d here (some node) names
    else if name = ".." then walkFrom d here.tail (d.node? here.tail.reverse) names
    else if name.utf8ByteSize > maxName then .error .nameTooLong
    else walkFrom d (name :: here) (node.child? name) names

/-- Where `names` lead from a location. -/
def walk (d : Disk) (location : Location) (names : List String) : Except Fault Location :=
  d.walkFrom location.reverse (d.node? location) names

/-- Where the walk along a path starts. -/
def start (d : Disk) (path : String) : Location := if Path.isAbsolute path then [] else d.current

/-- What is wrong with a path whatever the disk holds. -/
def pathFault? (path : String) : Option Fault :=
  if path.toList.contains '\x00' then some .nulInPath
  else if path = "" then some .noEntry
  else if path.utf8ByteSize ≥ maxPath then some .nameTooLong
  else none

/-- Where a path leads. -/
def locate (d : Disk) (path : String) : Except Fault Location :=
  match pathFault? path with
  | some fault => .error fault
  | none => d.walk (d.start path) (Path.segments path)

/-- What there is at the end of a path. -/
def lookup (d : Disk) (path : String) : Except Fault Node := do
  let location ← d.locate path
  match d.node? location with
  | some node => .ok node
  | none => .error .noEntry

/-- Whether a path leads to anything. -/
def isPresent (d : Disk) (path : String) : Bool := (d.lookup path).toOption.isSome

/-- Whether a path leads to a directory. -/
def isDirectory (d : Disk) (path : String) : Bool :=
  (d.lookup path).toOption.any Node.isDirectory

/-! ## Reading -/

/-- A file opened for reading: its announced length and its bytes.  A
directory can be opened, and then fails to be read. -/
def openFile (d : Disk) (path : String) : Except Fault (Nat × Reader) := do
  match ← d.lookup path with
  | .file contents => .ok (contents.length, { rest := contents })
  | .directory _ => .ok (directoryLength, { rest := [], plan := [.failing .isADirectory] })

/-- All bytes of a file. -/
def fileBytes (d : Disk) (path : String) : Except Fault Bytes := do
  match ← d.lookup path with
  | .file contents => .ok contents
  | .directory _ => .error .isADirectory

/-- The text of a file. -/
def fileText (d : Disk) (path : String) : Except Fault String := do
  match Utf8.decode? (← d.fileBytes path) with
  | some text => .ok text
  | none => .error .notUtf8

/-! ## Writing -/

/-- Whether a path ends in a slash. -/
def endsInSlash (path : String) : Bool := path.toList.getLast? = some '/'

/-- The segments of a path without the empty ones at its end. -/
def trimSegments (path : String) : List String :=
  ((Path.segments path).reverse.dropWhile (· = "")).reverse

/-- Where a file is written at the end of a path.  What the last name lies in
has to be a directory; only then is it looked at whether the path speaks of
a directory, and last whether the name can be one and there is none. -/
def target (d : Disk) (path : String) : Except Fault Location := do
  if let some fault := pathFault? path then .error fault
  let names := trimSegments path
  let place ← d.walk (d.start path) (names.dropLast ++ ["."])
  if endsInSlash path then .error .isADirectory
  let location ← d.walk place names.getLast?.toList
  if (d.node? location).any Node.isDirectory then .error .isADirectory
  return location

/-- An existing file is emptied, a missing one made; the place is then open
for writing. -/
def create (d : Disk) (path : String) : Except Fault (Location × Disk) := do
  let location ← d.target path
  return (location, d.set location (.file []))

/-- How many bytes an open place takes, if bounded. -/
def room (d : Disk) (location : Location) : Option Nat := (d.limits location).room

/-- What is written to at an open place. -/
def output (d : Disk) (location : Location) : Output :=
  { room := d.room location, refusal := .noSpace }

/-- The disk after `contents` went to an open place. -/
def store (d : Disk) (location : Location) (contents : Bytes) : Disk :=
  d.set location (.file contents)

/-- A whole file written: the fault if there was one, and the disk after it.
What does not fit is cut off. -/
def writeFile (d : Disk) (path : String) (contents : Bytes) : Except Fault Unit × Disk :=
  match d.create path with
  | .error fault => (.error fault, d)
  | .ok (location, d) =>
    let (outcome, output) := Writer.writeAll (d.output location) contents
    (outcome, d.store location output.contents)

/-- A directory made in an existing one. -/
def makeDirectory (d : Disk) (path : String) : Except Fault Disk := do
  if let some fault := pathFault? path then .error fault
  let location ← d.walk (d.start path) (trimSegments path)
  if (d.node? location).isSome then .error .alreadyExists
  return d.set location .empty

/-- A directory made unless it is there: what is there must be one. -/
def ensureDirectory (d : Disk) (path : String) : Except Fault Disk :=
  match d.makeDirectory path with
  | .ok d => .ok d
  | .error fault => if d.isDirectory path then .ok d else .error fault

/-- The first of some paths made a directory, given that each of them lies in
the next.  Only if the place it lies in is missing is that made before it. -/
def ensureNested (d : Disk) : List String → Except Fault Unit × Disk
  | [] => (.ok (), d)
  | path :: outer =>
    match d.makeDirectory path with
    | .ok d => (.ok (), d)
    | .error .noEntry =>
      match ensureNested d outer with
      | (.error fault, d) => (.error fault, d)
      | (.ok (), d) =>
        match d.ensureDirectory path with
        | .ok d => (.ok (), d)
        | .error fault => (.error fault, d)
    | .error fault => if d.isDirectory path then (.ok (), d) else (.error fault, d)

/-- A directory made together with those it lies in, unless it is there. -/
def ensurePath (d : Disk) (path : String) : Except Fault Unit × Disk :=
  d.ensureNested (Path.nesting path)

/-- The directories that a path lies in made, unless they are there. -/
def ensureParents (d : Disk) (path : String) : Except Fault Unit × Disk :=
  d.ensureNested (Path.nesting path).tail

/-! ## Directory trees -/

mutual

/-- The names that lead from the place called `path` to the files below it.
A directory whose own path is too long cannot be told from a file. -/
def listNode (path : String) : Node → List Location
  | .directory entries => if (pathFault? path).isSome then [[]] else listEntries path entries
  | .file _ => [[]]

/-- The names that lead from the directory called `path` to the files among
its entries and below them. -/
def listEntries (path : String) : List (String × Node) → List Location
  | [] => []
  | (name, node) :: rest =>
    (listNode (Path.append path name) node).map (name :: ·) ++ listEntries path rest

end

/-- The names of the files in a directory and in those below it. -/
def listFiles (d : Disk) (path : String) : Except Fault (List Location) := do
  match ← d.lookup path with
  | .directory entries => .ok (listEntries path entries)
  | .file _ => .error .notADirectory

end Disk

end SealedModules
