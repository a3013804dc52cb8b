/-
# Byte strings

Everything this library reads, writes, seals or packs is a byte string, kept
as a list so that prefixes, concatenations and slices are the list
operations.  `Bytes.chunks` cuts one into pieces of a bounded length, the
way a serializer hands its output to a writer.
-/

namespace SealedModules

/-- A byte string. -/
abbrev Bytes := List UInt8

namespace Bytes

/-- The bytes cut into pieces of `size` bytes, the last one possibly shorter
(a `size` of zero acts as one). -/
def chunks (size : Nat) (bytes : Bytes) : List Bytes :=
  if h : bytes = [] then []
  else
    have : (bytes.drop (max size 1)).length < bytes.length := by
      have : 0 < bytes.length := List.length_pos_iff.mpr h
      simp only [List.length_drop]
      omega
    bytes.take (max size 1) :: chunks size (bytes.drop (max size 1))
termination_by bytes.length

end Bytes

end SealedModules
