/-
# Requests to a module system

Every operation of a module system as a value, so that a history is a list.
`perform` carries one out and gives its answer.
-/
import SealedModules.ModuleSystem

namespace SealedModules

/-- An operation of a module system. -/
inductive Request where
  | flags
  | setFlags (flags : Flags)
  | loadBytes (name : String) (bytes : Bytes)
  | loadFile (path : String) (chunk : Option String)
  | loadAsset (path : String) (chunk : Option String)
  | preloadBytes (name : String) (bytes : Bytes)
  | preloadFile (name path : String)
  | preloadAsset (name path : String)
  | preloadAndDump (name path out : String)
  | isPreloaded (name : String)
  | preloadedNames
  | resolve (name : String)
  | require (name : String)
  | call (unit : CompiledModule)
  | dumpTo (unit : CompiledModule) (path : String)
  | dumpBytes (unit : CompiledModule)
deriving DecidableEq

/-- What an operation answers. -/
inductive Answer where
  | done
  | flags (flags : Flags)
  | loaded (unit : CompiledModule)
  | preloaded (isThere : Bool)
  | names (names : List String)
  | resolved (resolved : Resolved)
  | value (value : Option Int64)
  | dumped (report : DumpReport)
  | bytes (bytes : Bytes)
  | failed (error : ModuleError)

namespace Answer

/-- The answer for an outcome. -/
def ofOutcome {α : Type} (answer : α → Answer) : Except ModuleError α → Answer
  | .ok outcome => answer outcome
  | .error error => .failed error

/-- The answer for an outcome, beside the world after it. -/
def beside {α : Type} (answer : α → Answer) (result : Except ModuleError α × World) :
    Answer × World :=
  (ofOutcome answer result.1, result.2)

end Answer

namespace World

/-- One operation carried out. -/
def perform (w : World) : Request → Answer × World
  | .flags => (.flags w.flags, w)
  | .setFlags flags => (.flags flags, w.setFlags flags)
  | .loadBytes name bytes => Answer.beside .loaded (w.compileBytes name bytes)
  | .loadFile path chunk => Answer.beside .loaded (w.compileFile path chunk)
  | .loadAsset path chunk => Answer.beside .loaded (w.compileAsset path chunk)
  | .preloadBytes name bytes => Answer.beside (fun _ => .done) (w.preloadBytes name bytes)
  | .preloadFile name path => Answer.beside (fun _ => .done) (w.preloadFile name path)
  | .preloadAsset name path => Answer.beside (fun _ => .done) (w.preloadAsset name path)
  | .preloadAndDump name path out => Answer.beside .dumped (w.preloadAndDump name path out)
  | .isPreloaded name => (.preloaded (w.isPreloaded name), w)
  | .preloadedNames => (.names w.preloadedNames, w)
  | .resolve name => Answer.beside .resolved (w.resolve name)
  | .require name => Answer.beside .value (w.require name)
  | .call unit => Answer.beside .value (w.call unit)
  | .dumpTo unit path => Answer.beside .dumped (w.dumpTo unit path)
  | .dumpBytes unit => (.ofOutcome .bytes (w.dumpBytes unit), w)

end World

end SealedModules
