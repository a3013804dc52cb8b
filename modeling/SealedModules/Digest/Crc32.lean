/-
# CRC-32

The checksum of a pack's entry section: the reflected cyclic redundancy
check with polynomial 0xEDB88320, started from all ones and complemented at
the end.  The register takes a byte by adding it into its low end and
shifting out eight bits; both are linear over exclusive or.
-/
import SealedModules.Bytes

namespace SealedModules.Crc32

/-- The reflected polynomial. -/
def polynomial : BitVec 32 := 0xEDB88320#32

/-- One bit shifted out of the register. -/
def shift (r : BitVec 32) : BitVec 32 :=
  if r.getLsbD 0 then (r >>> 1) ^^^ polynomial else r >>> 1

/-- `n` bits shifted out of the register. -/
def shifts : (n : Nat) → BitVec 32 → BitVec 32
  | 0, r => r
  | n + 1, r => shifts n (shift r)

/-- One byte taken into the register. -/
def absorb (r : BitVec 32) (b : UInt8) : BitVec 32 :=
  shifts 8 (r ^^^ BitVec.ofNat 32 b.toNat)

/-- The register after a byte string. -/
def register (r : BitVec 32) (bs : Bytes) : BitVec 32 := bs.foldl absorb r

/-- The checksum of a byte string. -/
def checksum (bs : Bytes) : BitVec 32 := ~~~ (register (BitVec.allOnes 32) bs)

/-- The digits from one to nine, the usual test of a checksum. -/
example : checksum [0x31, 0x32, 0x33, 0x34, 0x35, 0x36, 0x37, 0x38, 0x39] = 0xCBF43926#32 := by
  decide +kernel

end SealedModules.Crc32
