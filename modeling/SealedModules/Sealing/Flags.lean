/-
# File flags

Two bits say how module files are written and read: whether they are sealed
(bit 1) and whether readable source is accepted (bit 2).  Other bits of a
raw value are dropped.
-/

namespace SealedModules

/-- The two file flags. -/
structure Flags where
  protection : Bool := true
  readableSource : Bool := true
deriving DecidableEq, Repr

namespace Flags

/-- The flags set in a raw value. -/
def ofBits (bits : Nat) : Flags := ⟨bits.testBit 0, bits.testBit 1⟩

/-- The raw value of the flags. -/
def bits (flags : Flags) : Nat :=
  (if flags.protection then 1 else 0) + (if flags.readableSource then 2 else 0)

/-- The names of the flags that are set, as a diagnostic shows them. -/
def describe : Flags → String
  | ⟨true, true⟩ => "FileFlags(PROTECTED | READABLE_SOURCE)"
  | ⟨true, false⟩ => "FileFlags(PROTECTED)"
  | ⟨false, true⟩ => "FileFlags(READABLE_SOURCE)"
  | ⟨false, false⟩ => "FileFlags(0x0)"

@[simp] theorem ofBits_bits (flags : Flags) : ofBits flags.bits = flags := by
  rcases flags with ⟨_ | _, _ | _⟩ <;> decide

end Flags

end SealedModules
