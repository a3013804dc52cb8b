/-
# Little-endian words

Numbers in the envelope, in compiled units and in packs are written lowest
byte first in a fixed number of bytes.  `encode` writes the low-order bytes
of a number, `decode` reads bytes back, and `read?` takes a word off the front
of a byte string.
-/
import SealedModules.Bytes

namespace SealedModules.Word

/-- The `width` low-order bytes of `n`, lowest first. -/
def encode : (width : Nat) → (n : Nat) → Bytes
  | 0, _ => []
  | width + 1, n => UInt8.ofNat n :: encode width (n / 256)

/-- The number whose bytes, lowest first, are given. -/
def decode : Bytes → Nat
  | [] => 0
  | b :: bs => b.toNat + 256 * decode bs

@[simp] theorem length_encode (width n : Nat) : (encode width n).length = width := by
  induction width generalizing n with
  | zero => rfl
  | succ width ih => simp [encode, ih]

/-- A word of `width` bytes at the start of `bs`, and what follows it. -/
def read? (width : Nat) (bs : Bytes) : Option (Nat × Bytes) :=
  if bs.length < width then none else some (decode (bs.take width), bs.drop width)

end SealedModules.Word
