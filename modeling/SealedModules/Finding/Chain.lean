/-
# The search for a module

Finders are asked in order until one finds the module or fails.  Only if
each of them says that there is nothing does the search end without a
module, and its error then lists every attempt.
-/
import SealedModules.Finding.Finder

namespace SealedModules

/-- A module found by a search. -/
structure Resolved where
  unit : CompiledModule
  origin : String
  /-- the label of the finder that found it -/
  finder : String
deriving DecidableEq

/-- Finders in the order they are asked. -/
abbrev Chain := List Finder

/-- What a search leaves: its outcome, the interpreter, and the finders, some
of which have been asked. -/
structure Search where
  outcome : Except ModuleError Resolved
  interpreter : Interpreter
  chain : Chain

namespace Chain

/-- The labels of the finders in order. -/
def labels (chain : Chain) : List String := chain.map Finder.label

/-- How often each probe was asked, in order. -/
def hits (chain : Chain) : List Nat :=
  chain.filterMap fun finder =>
    match finder with
    | .probe _ asked => some asked
    | _ => none

/-- A finder's attempt as it is listed. -/
def attempt (finder : Finder) (message : String) : String := s!"\n\t[{finder.label}] {message}"

/-- The search for a module after some attempts were made. -/
def searchFrom (name : String) (around : Surroundings) :
    Chain → (attempts : List String) → Interpreter → Search
  | [], attempts, interpreter => ⟨.error (.exhausted name attempts), interpreter, []⟩
  | finder :: later, attempts, interpreter =>
    match finder.ask name around interpreter with
    | (.found unit origin, interpreter) =>
      ⟨.ok ⟨unit, origin, finder.label⟩, interpreter, finder.noteAsked :: later⟩
    | (.failed error, interpreter) => ⟨.error error, interpreter, finder.noteAsked :: later⟩
    | (.nothing message, interpreter) =>
      let rest := searchFrom name around later (attempts ++ [attempt finder message]) interpreter
      { rest with chain := finder.noteAsked :: rest.chain }

/-- The search for a module. -/
def search (chain : Chain) (name : String) (around : Surroundings) (interpreter : Interpreter) :
    Search :=
  searchFrom name around chain [] interpreter

end Chain

end SealedModules
