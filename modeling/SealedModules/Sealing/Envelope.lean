/-
# The envelope of a sealed module

A sealed module opens with twelve bytes: eight of magic and four that give
the length of the payload.  A byte string carries an envelope only if the
declared length is exactly that of what follows, so a truncated or extended
file is not taken for a sealed one.
-/
import SealedModules.Bytes.Word

namespace SealedModules

/-- The header in front of a sealed payload. -/
structure Envelope where
  payloadLength : UInt32
deriving DecidableEq, Repr

namespace Envelope

/-- The bytes every envelope opens with: `MSEAL01` and a zero. -/
def magic : Bytes := [0x4D, 0x53, 0x45, 0x41, 0x4C, 0x30, 0x31, 0x00]

/-- The length of an envelope. -/
def size : Nat := 12

/-- The envelope written out. -/
def toBytes (e : Envelope) : Bytes := magic ++ Word.encode 4 e.payloadLength.toNat

/-- The envelope at the start of a byte string, whatever follows it. -/
def parse? (bytes : Bytes) : Option Envelope :=
  if bytes.length < size ∨ bytes.take 8 ≠ magic then none
  else some ⟨UInt32.ofNat (Word.decode ((bytes.drop 8).take 4))⟩

/-- Whether the envelope announces the payload of a file of `total` bytes. -/
def matchesLength (e : Envelope) (total : Nat) : Bool :=
  decide (size ≤ total ∧ e.payloadLength.toNat = total - size)

@[simp] theorem length_toBytes (e : Envelope) : e.toBytes.length = size := by
  simp [toBytes, magic, size]

end Envelope

end SealedModules
