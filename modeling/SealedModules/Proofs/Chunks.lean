/-
# Cutting byte strings into pieces

`Bytes.chunks` loses nothing (`flatten_chunks`), makes no empty piece, and
makes every piece but the last one full.  With the concatenation these fix
the pieces, so whatever is written or read block by block is compared with
`chunks`.
-/
import SealedModules.Bytes

namespace SealedModules.Bytes

@[simp] theorem chunks_nil (size : Nat) : chunks size [] = [] := by
  rw [chunks]; rfl

theorem chunks_of_ne_nil (size : Nat) {bytes : Bytes} (h : bytes ≠ []) :
    chunks size bytes = bytes.take (max size 1) :: chunks size (bytes.drop (max size 1)) := by
  rw [chunks, dif_neg h]

/-- A block size of zero acts as one. -/
theorem chunks_max_one (size : Nat) (bytes : Bytes) :
    chunks (max size 1) bytes = chunks size bytes := by
  fun_induction chunks size bytes with
  | case1 => exact chunks_nil _
  | case2 bytes h _ ih =>
      rw [chunks_of_ne_nil _ h, show max (max size 1) 1 = max size 1 by omega, ih]

theorem flatten_chunks (size : Nat) (bytes : Bytes) : (chunks size bytes).flatten = bytes := by
  fun_induction chunks size bytes with
  | case1 => rfl
  | case2 bytes h _ ih => rw [List.flatten_cons, ih, List.take_append_drop]

theorem ne_nil_of_mem_chunks {size : Nat} {bytes piece : Bytes} (h : piece ∈ chunks size bytes) :
    piece ≠ [] := by
  fun_induction chunks size bytes with
  | case1 => exact absurd h List.not_mem_nil
  | case2 bytes hne _ ih =>
      rcases List.mem_cons.mp h with rfl | h
      · have := List.length_pos_iff.mpr hne
        rw [← List.length_pos_iff, List.length_take]
        omega
      · exact ih h

theorem length_le_of_mem_chunks {size : Nat} {bytes piece : Bytes}
    (h : piece ∈ chunks size bytes) :
    piece.length ≤ max size 1 := by
  fun_induction chunks size bytes with
  | case1 => exact absurd h List.not_mem_nil
  | case2 bytes hne _ ih =>
      rcases List.mem_cons.mp h with rfl | h
      · exact List.length_take_le _ _
      · exact ih h

theorem length_of_mem_dropLast_chunks {size : Nat} {bytes piece : Bytes}
    (h : piece ∈ (chunks size bytes).dropLast) : piece.length = max size 1 := by
  fun_induction chunks size bytes with
  | case1 => exact absurd h List.not_mem_nil
  | case2 bytes hne _ ih =>
      by_cases hrest : bytes.drop (max size 1) = []
      · rw [hrest, chunks_nil] at h
        exact absurd h List.not_mem_nil
      · have hcut := List.length_pos_iff.mpr hrest
        rw [List.length_drop] at hcut
        rw [List.dropLast_cons_of_ne_nil (by rw [chunks_of_ne_nil _ hrest]; simp)] at h
        rcases List.mem_cons.mp h with rfl | h
        · rw [List.length_take]; omega
        · exact ih h

end SealedModules.Bytes
