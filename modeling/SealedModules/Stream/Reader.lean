/-
# Readers

A reader hands out a byte string by and by.  How much each single read gives
is not up to the one who asks: a read may be short, may be interrupted, may
fail, and a read of nothing looks like the end.  A `Reader` carries the
bytes still to come and a plan for its next reads; once the plan is used up
every read gives as much as fits.

`fill` is the loop around single reads that everything here reads with.
-/
import SealedModules.Bytes
import SealedModules.Fault

namespace SealedModules

/-- What a single read does. -/
inductive ReadStep where
  /-- gives at most `count` bytes, and nothing looks like the end -/
  | upTo (count : Nat)
  /-- gives nothing and asks to be repeated -/
  | interrupted
  /-- fails -/
  | failing (fault : Fault)
deriving DecidableEq, Repr

/-- Bytes to come, and what the next reads do. -/
structure Reader where
  rest : Bytes
  plan : List ReadStep := []
deriving DecidableEq, Repr

namespace Reader

/-- Reads of `rest` under `plan` until `want` bytes are there, a read gives
nothing, or a read fails; interrupted reads are repeated.  Bytes read before
a failure are lost. -/
def fillFrom : (plan : List ReadStep) → (rest : Bytes) → (want : Nat) →
    Except Fault Bytes × Reader
  | plan, rest, 0 => (.ok [], ⟨rest, plan⟩)
  | [], rest, want => (.ok (rest.take want), ⟨rest.drop want, []⟩)
  | .interrupted :: plan, rest, want => fillFrom plan rest want
  | .failing fault :: plan, rest, _ => (.error fault, ⟨rest, plan⟩)
  | .upTo count :: plan, rest, want =>
    let size := min (min count want) rest.length
    if size = 0 then (.ok [], ⟨rest, plan⟩)
    else
      match fillFrom plan (rest.drop size) (want - size) with
      | (.ok more, reader) => (.ok (rest.take size ++ more), reader)
      | (.error fault, reader) => (.error fault, reader)

/-- Up to `want` bytes; fewer only at the end. -/
def fill (r : Reader) (want : Nat) : Except Fault Bytes × Reader :=
  fillFrom r.plan r.rest want

/-- The bytes that come back are taken off the front of what is to come. -/
theorem rest_of_fillFrom {plan : List ReadStep} {rest : Bytes} {want : Nat} {got : Bytes}
    {reader : Reader} (h : fillFrom plan rest want = (.ok got, reader)) :
    got ++ reader.rest = rest := by
  fun_induction fillFrom plan rest want generalizing got reader with
  | case1 => grind
  | case2 => grind [List.take_append_drop]
  | case3 _ _ _ _ ih => exact ih h
  | case4 => simp at h
  | case5 => grind
  | case6 =>
    rename_i hrec ih
    have := ih hrec
    simp only [Prod.mk.injEq, Except.ok.injEq] at h
    obtain ⟨rfl, rfl⟩ := h
    rw [List.append_assoc, this, List.take_append_drop]
  | case7 => simp at h

theorem rest_of_fill {r reader : Reader} {want : Nat} {got : Bytes}
    (h : r.fill want = (.ok got, reader)) : got ++ reader.rest = r.rest :=
  rest_of_fillFrom h

end Reader

end SealedModules
