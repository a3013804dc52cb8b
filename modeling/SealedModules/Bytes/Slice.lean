/-
# Slices of a buffer

A reader that stays in one buffer keeps offsets into it, and takes slices from
one to another.  Here nothing is taken for granted of an offset: a sum that
leaves the machine word has no result, a difference that would be negative has
none, and neither has a slice that leaves the buffer or ends before it starts.
Where all is well these are the plain sum and difference, and `take` of `drop`.
-/
import SealedModules.Bytes.Word

namespace SealedModules.Bytes

/-- The sum of two offsets, if it is one. -/
def add? (m n : Nat) : Option Nat := if m + n < UInt64.size then some (m + n) else none

/-- The difference of two offsets, if it is one. -/
def sub? (m n : Nat) : Option Nat := if n ≤ m then some (m - n) else none

/-- The bytes from one offset to another, if both are inside and in order. -/
def slice? (bytes : Bytes) (start stop : Nat) : Option Bytes :=
  if start ≤ stop ∧ stop ≤ bytes.length then some ((bytes.drop start).take (stop - start))
  else none

theorem add?_of_lt {m n : Nat} (h : m + n < UInt64.size) : add? m n = some (m + n) := if_pos h

theorem eq_of_add? {m n sum : Nat} (h : add? m n = some sum) : sum = m + n :=
  (Option.some.inj (Option.ite_none_right_eq_some.mp h).2).symm

theorem slice?_of_le (bytes : Bytes) {start stop : Nat} (h : start ≤ stop)
    (hstop : stop ≤ bytes.length) :
    slice? bytes start stop = some ((bytes.drop start).take (stop - start)) :=
  if_pos ⟨h, hstop⟩

theorem sub?_of_le {m n : Nat} (h : n ≤ m) : sub? m n = some (m - n) := if_pos h

theorem le_of_slice? {bytes slice : Bytes} {start stop : Nat}
    (h : slice? bytes start stop = some slice) : start ≤ stop ∧ stop ≤ bytes.length :=
  (Option.ite_none_right_eq_some.mp h).1

theorem slice?_length {bytes : Bytes} {start : Nat} (h : start ≤ bytes.length) :
    slice? bytes start bytes.length = some (bytes.drop start) := by
  rw [slice?_of_le bytes h (Nat.le_refl _), ← List.length_drop, List.take_length]

/-- A word of `width` bytes that stands at an offset. -/
def word? (width : Nat) (bytes : Bytes) (offset : Nat) : Option Nat := do
  let rest ← slice? bytes offset bytes.length
  let word ← slice? rest 0 width
  return Word.decode word

theorem word?_of_le {width offset : Nat} {bytes : Bytes} (h : offset + width ≤ bytes.length) :
    word? width bytes offset = some (Word.decode ((bytes.drop offset).take width)) := by
  have hword : slice? (bytes.drop offset) 0 width = some ((bytes.drop offset).take width) :=
    slice?_of_le _ (Nat.zero_le _) (by rw [List.length_drop]; omega)
  unfold word?
  rw [slice?_length (by omega)]
  simp only [Option.bind_eq_bind, Option.bind_some, hword]
  rfl

end SealedModules.Bytes
