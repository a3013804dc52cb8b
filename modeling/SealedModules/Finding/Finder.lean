/-
# Finders

A finder is one way of turning a module name into a compiled module: the
registry of modules compiled ahead of time, a file, an asset, or a reply of
the host application; a probe finds nothing and counts how often it is
asked.

A finder's answer is one of three.  It found the module; there is nothing to
be found, and the next finder may be asked; or there is something and it
cannot be loaded, which ends the search.
-/
import SealedModules.Compile
import SealedModules.Dictionary
import SealedModules.Finding.ModuleName

namespace SealedModules

/-- Compiled modules registered by name. -/
abbrev Registry := Dictionary CompiledModule

/-- What a host application answers to a module name. -/
inductive HostReply where
  /-- compile the file at a path -/
  | path (path : String)
  /-- compile these bytes -/
  | bytes (bytes : Bytes)
  /-- the module is not known -/
  | missing (message : Option String)
  /-- the host tried and failed -/
  | failed (message : String)
deriving DecidableEq, Repr

/-- One way of finding modules. -/
inductive Finder where
  | registry
  | file (root : Option String) (extension : String)
  | asset (source : AssetSource) (root : Option String) (extension : String)
  /-- the host is handed the interpreter, and may leave it changed -/
  | host (reply : String → Interpreter → HostReply)
    (leaves : String → Interpreter → Interpreter := fun _ interpreter => interpreter)
  | probe (label : String) (asked : Nat)

/-- A finder's answer. -/
inductive FinderAnswer where
  | found (unit : CompiledModule) (origin : String)
  | nothing (message : String)
  | failed (error : ModuleError)

/-- What finders look at and do not change. -/
structure Surroundings where
  sealer : Sealer
  blockSize : Nat
  registry : Registry
  disk : Disk

namespace FinderAnswer

/-- The answer for a module compiled from an origin: an origin that is not
there is nothing to be found, and any other error is a failure to load. -/
def ofCompilation (name origin : String) : Except ModuleError Compilation → FinderAnswer
  | .ok compilation => .found compilation.unit origin
  | .error error =>
    if error.isMissing then .nothing error.message else .failed (.broken name origin error)

end FinderAnswer

namespace Finder

/-- Where a module from the registry is said to come from. -/
def registryOrigin : String := ":preload:"

/-- The name of a finder in diagnostics. -/
def label : Finder → String
  | .registry => "preload"
  | .file .. => "file"
  | .asset .. => "asset"
  | .host .. => "host"
  | .probe label _ => label

/-- The registry's answer. -/
def askRegistry (registry : Registry) (name : String) : FinderAnswer :=
  match registry.get? name with
  | some unit => .found unit registryOrigin
  | none => .nothing s!"no preloaded module '{name}'"

/-- The answer of the file that a module's name leads to. -/
def askFile (root : Option String) (extension name : String) (around : Surroundings)
    (interpreter : Interpreter) : FinderAnswer × Interpreter :=
  let path := ModuleName.filePath root name extension
  match around.disk.openFile path with
  | .error fault => (.nothing s!"no file '{path}': {fault.message}", interpreter)
  | .ok _ =>
    let (result, interpreter) :=
      Compilation.ofFile interpreter around.sealer around.disk path (some name) around.blockSize
    (.ofCompilation name path result, interpreter)

/-- The answer of the asset that a module's name leads to. -/
def askAsset (source : AssetSource) (root : Option String) (extension name : String)
    (around : Surroundings) (interpreter : Interpreter) : FinderAnswer × Interpreter :=
  let path := ModuleName.assetPath root name extension
  if source.contains path then
    let (result, interpreter) :=
      Compilation.ofAsset interpreter around.sealer around.disk source path (some name)
        around.blockSize
    (.ofCompilation name s!"asset '{path}'" result, interpreter)
  else (.nothing s!"no asset '{path}'", interpreter)

/-- The answer that a host's reply leads to. -/
def followReply (reply : HostReply) (name : String) (around : Surroundings)
    (interpreter : Interpreter) : FinderAnswer × Interpreter :=
  match reply with
  | .path path =>
    let (result, interpreter) :=
      Compilation.ofFile interpreter around.sealer around.disk path (some name) around.blockSize
    (.ofCompilation name path result, interpreter)
  | .bytes bytes =>
    let (result, interpreter) :=
      Compilation.ofBytes interpreter around.sealer bytes (some name)
    (.ofCompilation name "host buffer" result, interpreter)
  | .missing message => (.nothing (message.getD s!"host has no module '{name}'"), interpreter)
  | .failed message => (.failed (.hostFailed name message), interpreter)

/-- A finder's answer to a name. -/
def ask (finder : Finder) (name : String) (around : Surroundings) (interpreter : Interpreter) :
    FinderAnswer × Interpreter :=
  match finder with
  | .registry => (askRegistry around.registry name, interpreter)
  | .file root extension => askFile root extension name around interpreter
  | .asset source root extension => askAsset source root extension name around interpreter
  | .host reply leaves =>
    followReply (reply name interpreter) name around (leaves name interpreter)
  | .probe _ _ => (.nothing s!"counted '{name}'", interpreter)

/-- The finder after it has been asked. -/
def noteAsked : Finder → Finder
  | .probe label asked => .probe label (asked + 1)
  | finder => finder

end Finder

end SealedModules
