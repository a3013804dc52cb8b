/-
# Compiling modules

A module is compiled from bytes in memory, from a file or from an asset.
Its origin is opened, its content told, and its bytes fed to the
interpreter, whose verdict stands, with one exception: a failed read
outranks whatever was made of the bytes before it.
-/
import SealedModules.Asset.Source
import SealedModules.Error
import SealedModules.Script.Interpreter

namespace SealedModules

/-- A compiled module and how it was read. -/
structure Compilation where
  unit : CompiledModule
  content : Content
  chunk : Option String
  /-- the number of bytes the interpreter was fed -/
  consumed : Nat
deriving DecidableEq

namespace Compilation

/-- The name of a chunk that stands for its path. -/
def pathChunk (path : String) : String := "@" ++ path

/-- A module compiled from bytes in memory. -/
def ofBytes (interpreter : Interpreter) (sealer : Sealer) (bytes : Bytes)
    (chunk : Option String) : Except ModuleError Compilation × Interpreter :=
  let feed := BufferFeed.ofBytes sealer bytes
  let (loaded, interpreter, after) := interpreter.load feed chunk
  match loaded with
  | .ok unit => (.ok ⟨unit, feed.content, chunk, after.consumed⟩, interpreter)
  | .error message =>
    (.error (.rejected (chunk.getD Interpreter.anonymous) message), interpreter)

/-- A module compiled from a stream; `path` is what it is called in errors. -/
def ofFeed (interpreter : Interpreter) (feed : StreamFeed) (chunk path : String) :
    Except ModuleError Compilation × Interpreter :=
  let (loaded, interpreter, after) := interpreter.load feed (some chunk)
  match after.takeFault.1 with
  | some fault => (.error (.failed (.reading feed.content) path fault), interpreter)
  | none =>
    match loaded with
    | .ok unit => (.ok ⟨unit, feed.content, some chunk, after.consumed⟩, interpreter)
    | .error message => (.error (.rejected chunk message), interpreter)

/-- The error for an origin that could not be opened. -/
def openError (what path : String) (fault : Fault) : ModuleError :=
  if fault.isAbsence then .missing what path fault.message else .failed .opening path fault

/-- A module compiled from a file; its chunk is named after its path unless
it is given a name.  Opening a file and asking for its length are one step: a
disk tells the length of whatever it opens, so that the failure of asking alone,
which would be one of `opening` too, does not come up. -/
def ofFile (interpreter : Interpreter) (sealer : Sealer) (disk : Disk) (path : String)
    (chunk : Option String) (blockSize : Nat) : Except ModuleError Compilation × Interpreter :=
  match disk.openFile path with
  | .error fault => (.error (openError "file" path fault), interpreter)
  | .ok (length, reader) =>
    ofFeed interpreter (.ofReader reader length sealer blockSize)
      (chunk.getD (pathChunk path)) path

/-- The error for an asset that could not be opened. -/
def assetError (path : String) : AssetError → ModuleError
  | .notFound missing => .missing "asset" missing "not present in the asset store"
  | .failed fault => openError "asset" path fault
  | error => .asset error

/-- A module compiled from an asset; its chunk is named after its path unless
it is given a name. -/
def ofAsset (interpreter : Interpreter) (sealer : Sealer) (disk : Disk) (source : AssetSource)
    (path : String) (chunk : Option String) (blockSize : Nat) :
    Except ModuleError Compilation × Interpreter :=
  match source.fetch disk path with
  | .error error => (.error (assetError path error), interpreter)
  | .ok asset =>
    ofFeed interpreter (.ofReader asset.reader asset.length sealer blockSize)
      (chunk.getD (pathChunk path)) path

end Compilation

end SealedModules
