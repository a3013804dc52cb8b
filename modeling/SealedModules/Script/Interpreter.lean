/-
# The interpreter

The interpreter takes in module bytes from a feed, in script or in binary
form, and runs compiled modules.  It counts its loads and calls and keeps a
log of the chunk names it loaded, failures included.
-/
import SealedModules.Script.Statement
import SealedModules.Stream.FeedReader

namespace SealedModules

/-- The interpreter's counters and its log of chunk names. -/
structure Interpreter where
  loads : Nat := 0
  calls : Nat := 0
  chunks : List String := []
deriving DecidableEq, Repr

namespace Interpreter

/-- The name of a chunk that was given none. -/
def anonymous : String := "?"

/-- The module that bytes stand for: the binary form if they begin with its
first byte, and a script otherwise. -/
def read (bytes : Bytes) (chunk : String) : Except String CompiledModule :=
  if bytes.head? = CompiledModule.tag.head? then
    match CompiledModule.ofBytes? bytes with
    | some m => .ok m
    | none => .error s!"{chunk}: bad binary format (truncated chunk)"
  else Script.compile bytes chunk

/-- The interpreter after it was given a chunk to load. -/
def noteLoad (i : Interpreter) (chunk : String) : Interpreter :=
  { i with loads := i.loads + 1, chunks := i.chunks ++ [chunk] }

/-- A feed taken in to its end and made into a module. -/
def load {σ : Type} [Feed σ] (i : Interpreter) (feed : σ) (chunk : Option String) :
    Except String CompiledModule × Interpreter × σ :=
  let reader := FeedReader.mk feed [] false
  let (bytes, reader) := reader.readToEnd
  let name := chunk.getD anonymous
  (read bytes name, i.noteLoad name, reader.feed)

/-- A module run: its value, or its failure after the name of its chunk. -/
def call (i : Interpreter) (m : CompiledModule) : Except String (Option Int64) × Interpreter :=
  let outcome :=
    match m.failure with
    | some message => .error s!"{m.chunk}: {message}"
    | none => .ok m.value
  (outcome, { i with calls := i.calls + 1 })

end Interpreter

end SealedModules
