/-
# Module systems

A module system owns an interpreter together with what decides how modules
are found and read: the sealer, the registry of modules compiled ahead of
time, the finders, and the source of assets.  It works on a disk; a `World`
is the two together, and every operation takes a world to an outcome and a
world.

A module is registered only when everything an operation promises has been
done, so an operation that fails leaves the registry as it was.
-/
import SealedModules.Dump
import SealedModules.Finding.Chain

namespace SealedModules

/-- One interpreter and the modules it may load. -/
structure ModuleSystem where
  interpreter : Interpreter
  sealer : Sealer
  registry : Registry
  chain : Chain
  blockSize : Nat
  assets : Option AssetSource

/-- What a module system is built from, besides its settings. -/
structure Installation where
  interpreter : Interpreter := {}
  host : Option (String → Interpreter → HostReply) := none
  /-- what the host makes of the interpreter when it is asked for a module -/
  hostLeaves : String → Interpreter → Interpreter := fun _ interpreter => interpreter
  assets : Option AssetSource := none
  /-- finders to be asked after the configured ones -/
  extra : List Finder := []

/-- A module system and the disk it works on. -/
structure World where
  system : ModuleSystem
  disk : Disk

namespace ModuleSystem

/-- The finder of a kind, if what it needs is installed. -/
def finder? (settings : Settings) (installation : Installation) : FinderKind → Option Finder
  | .file => some (.file settings.searchRoot settings.extension)
  | .host => installation.host.map fun reply => .host reply installation.hostLeaves
  | .asset =>
    installation.assets.map fun source => .asset source settings.assetRoot settings.extension

/-- The finders of a system: the registry, the configured ones, the others. -/
def finders (settings : Settings) (installation : Installation) : Chain :=
  .registry :: settings.finders.filterMap (finder? settings installation) ++ installation.extra

/-- A module system built from settings that make sense. -/
def build (settings : Settings) (installation : Installation) :
    Except ModuleError ModuleSystem :=
  match settings.check with
  | .error error => .error (.settings error)
  | .ok settings =>
    .ok {
      interpreter := installation.interpreter
      sealer := settings.sealer Sealer.defaultSignature
      registry := Dictionary.empty
      chain := finders settings installation
      blockSize := settings.blockSize
      assets := installation.assets }

end ModuleSystem

namespace World

/-- The world with another interpreter. -/
def withInterpreter (w : World) (interpreter : Interpreter) : World :=
  { w with system := { w.system with interpreter } }

/-- The flags in force. -/
def flags (w : World) : Flags := w.system.sealer.flags

/-- The world with other flags, in force for every later read and dump. -/
def setFlags (w : World) (flags : Flags) : World :=
  { w with system := { w.system with sealer := { w.system.sealer with flags } } }

/-! ## Compiling -/

/-- A module compiled from bytes, in a chunk with a name. -/
def compileBytes (w : World) (name : String) (bytes : Bytes) :
    Except ModuleError CompiledModule × World :=
  let (result, interpreter) :=
    Compilation.ofBytes w.system.interpreter w.system.sealer bytes (some name)
  (result.map (·.unit), w.withInterpreter interpreter)

/-- A module compiled from a file. -/
def compileFile (w : World) (path : String) (chunk : Option String) :
    Except ModuleError CompiledModule × World :=
  let (result, interpreter) :=
    Compilation.ofFile w.system.interpreter w.system.sealer w.disk path chunk w.system.blockSize
  (result.map (·.unit), w.withInterpreter interpreter)

/-- A module compiled from an asset. -/
def compileAsset (w : World) (path : String) (chunk : Option String) :
    Except ModuleError CompiledModule × World :=
  match w.system.assets with
  | none => (.error (.missing "asset" path "no asset store configured"), w)
  | some source =>
    let (result, interpreter) :=
      Compilation.ofAsset w.system.interpreter w.system.sealer w.disk source path chunk
        w.system.blockSize
    (result.map (·.unit), w.withInterpreter interpreter)

/-! ## Registering -/

/-- The world with a module registered under a name. -/
def register (w : World) (name : String) (unit : CompiledModule) : World :=
  { w with system := { w.system with registry := w.system.registry.insert name unit } }

/-- A compiled module registered, if it was compiled. -/
def registerResult (name : String) :
    Except ModuleError CompiledModule × World → Except ModuleError Unit × World
  | (.ok unit, w) => (.ok (), w.register name unit)
  | (.error error, w) => (.error error, w)

/-- A module compiled from bytes and registered. -/
def preloadBytes (w : World) (name : String) (bytes : Bytes) : Except ModuleError Unit × World :=
  registerResult name (w.compileBytes name bytes)

/-- A module compiled from a file and registered. -/
def preloadFile (w : World) (name path : String) : Except ModuleError Unit × World :=
  registerResult name (w.compileFile path (some name))

/-- A module compiled from an asset and registered. -/
def preloadAsset (w : World) (name path : String) : Except ModuleError Unit × World :=
  registerResult name (w.compileAsset path (some name))

/-- Whether a module is registered under a name. -/
def isPreloaded (w : World) (name : String) : Bool := w.system.registry.contains name

/-- The names of the registered modules in order. -/
def preloadedNames (w : World) : List String := w.system.registry.keys

/-! ## Dumping -/

/-- A module dumped to a file. -/
def dumpTo (w : World) (unit : CompiledModule) (path : String) :
    Except ModuleError DumpReport × World :=
  let (result, disk) := Dump.toFile w.system.sealer unit w.system.blockSize w.disk path
  (result, { w with disk })

/-- A module dumped into memory. -/
def dumpBytes (w : World) (unit : CompiledModule) : Except ModuleError Bytes :=
  (Dump.toBytes w.system.sealer unit w.system.blockSize).map (·.1)

/-- A module compiled from an asset, dumped to a file, and then registered. -/
def preloadAndDump (w : World) (name path out : String) : Except ModuleError DumpReport × World :=
  match w.compileAsset path (some name) with
  | (.error error, w) => (.error error, w)
  | (.ok unit, w) =>
    match w.dumpTo unit out with
    | (.error error, w) => (.error error, w)
    | (.ok report, w) => (.ok report, w.register name unit)

/-! ## Finding and running -/

/-- What the finders of a world look at. -/
def surroundings (w : World) : Surroundings where
  sealer := w.system.sealer
  blockSize := w.system.blockSize
  registry := w.system.registry
  disk := w.disk

/-- The search for a module by name. -/
def resolve (w : World) (name : String) : Except ModuleError Resolved × World :=
  let search := w.system.chain.search name w.surroundings w.system.interpreter
  (search.outcome,
    { w with
      system := { w.system with interpreter := search.interpreter, chain := search.chain } })

/-- A module run. -/
def call (w : World) (unit : CompiledModule) : Except ModuleError (Option Int64) × World :=
  let (result, interpreter) := w.system.interpreter.call unit
  (result.mapError .raised, w.withInterpreter interpreter)

/-- A module searched for and run, anew every time. -/
def require (w : World) (name : String) : Except ModuleError (Option Int64) × World :=
  match w.resolve name with
  | (.error error, w) => (.error error, w)
  | (.ok resolved, w) => w.call resolved.unit

end World

end SealedModules
