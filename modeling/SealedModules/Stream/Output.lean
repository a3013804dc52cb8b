/-
# Outputs

An output takes bytes at a position, may have room for only so many, and
notes the sizes of the writes it took.  A write that does not fit is cut
short, one that finds no room at all fails, and an output may plan to cut its
next writes short even where there is room.

The bytes before the position are kept last one first, and those ahead of it
in order, so that a write costs no more than the bytes it brings.  Going
back to an earlier position and writing there overwrites.  `contents` is
what an output holds, and `contents_put` what a write makes of it.
-/
import SealedModules.Stream.Writer

namespace SealedModules

/-- An output in memory. -/
structure Output where
  /-- the bytes before the position, the last one first -/
  passed : Bytes := []
  /-- the bytes from the position on -/
  ahead : Bytes := []
  /-- how many bytes it will still take, if bounded -/
  room : Option Nat := none
  /-- what a write fails with when there is no room -/
  refusal : Fault := .other "writer full"
  /-- the most that each of the next writes takes, as far as that is planned;
  nothing is not an option, and counts as one byte -/
  plan : List Nat := []
  /-- the sizes of the writes it took, the last one first -/
  log : List Nat := []
  flushes : Nat := 0
deriving DecidableEq, Repr

namespace Output

/-- What the output holds. -/
def contents (o : Output) : Bytes := o.passed.reverse ++ o.ahead

/-- Where the next write starts. -/
def position (o : Output) : Nat := o.passed.length

/-- The sizes of the writes it took, in order. -/
def sizes (o : Output) : List Nat := o.log.reverse

/-- How many of `count` bytes there is room for. -/
def accepts (o : Output) (count : Nat) : Nat :=
  match o.room with
  | none => count
  | some room => min room count

/-- How many of `count` bytes the next write takes. -/
def grants (o : Output) (count : Nat) : Nat :=
  match o.plan with
  | [] => o.accepts count
  | most :: _ => min (max most 1) (o.accepts count)

/-- The output after `bytes` were written at its position. -/
def put (o : Output) (bytes : Bytes) : Output :=
  { o with
    passed := bytes.reverse ++ o.passed
    ahead := o.ahead.drop bytes.length
    room := o.room.map (· - bytes.length)
    plan := o.plan.tail
    log := bytes.length :: o.log }

/-- One write: the number of bytes taken, or a refusal. -/
def write (o : Output) (bytes : Bytes) : Except Fault Nat × Output :=
  let count := o.grants bytes.length
  if bytes ≠ [] ∧ count = 0 then (.error o.refusal, o)
  else (.ok count, o.put (bytes.take count))

instance : Writer Output where
  write := write

/-- The output after a flush. -/
def flush (o : Output) : Output := { o with flushes := o.flushes + 1 }

/-- The output with its position moved to one among its bytes. -/
def seek (o : Output) (position : Nat) : Output :=
  { o with
    passed := (o.contents.take position).reverse
    ahead := o.contents.drop position }

/-- A write replaces as many bytes as it brings, and leaves the others. -/
theorem contents_put (o : Output) (bytes : Bytes) :
    (o.put bytes).contents =
      o.contents.take o.position ++ bytes ++ o.contents.drop (o.position + bytes.length) := by
  have ht : o.contents.take o.position = o.passed.reverse := by
    simp [contents, position, List.take_left']
  have hd : o.contents.drop (o.position + bytes.length) = o.ahead.drop bytes.length := by
    simp [contents, position, ← List.drop_drop, List.drop_left']
  rw [ht, hd]
  simp [contents, put]

/-- Moving the position changes no byte. -/
@[simp] theorem contents_seek (o : Output) (position : Nat) :
    (o.seek position).contents = o.contents := by
  simp [contents, seek]

end Output

end SealedModules
