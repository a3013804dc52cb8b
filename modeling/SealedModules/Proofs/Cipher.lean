/-
# The cipher is a permutation

The shuffle changes its table by swaps alone, so the table that a key gives
takes no byte twice (`get_shuffle_injective`), whatever the hash does.  From
that, the table of the way back undoes it in both orders
(`invertible_ofKeyWith`): each byte is written once, so no later entry
overwrites it, and a table of 256 different bytes leaves none out.

Enciphering and deciphering go byte by byte, so they inherit both laws on
whole byte strings and do not see where a string is cut.
-/
import Mathlib.Data.Fintype.EquivFin
import SealedModules.Sealing.Sealer

namespace SealedModules

/-! ## Tables without repetition -/

namespace ByteTable

theorem get_identity_injective : Function.Injective identity.get := by
  intro i j h
  have hget (k : Fin 256) : identity.get k = UInt8.ofNat k.val := Vector.getElem_ofFn k.isLt
  have hn := congrArg UInt8.toNat h
  simp only [hget, UInt8.toNat_ofNat'] at hn
  apply Fin.ext
  omega

theorem get_swap_injective {t : ByteTable} (h : Function.Injective t.get) (i j : Nat)
    (hi : i < 256) (hj : j < 256) : Function.Injective (t.swap i j hi hj).get := by
  have hget (k : Fin 256) :
      (t.swap i j hi hj).get k = t.get (Equiv.swap ⟨i, hi⟩ ⟨j, hj⟩ k) := by
    show (t.swap i j hi hj)[k.val] = t[(Equiv.swap ⟨i, hi⟩ ⟨j, hj⟩ k).val]
    rw [Vector.getElem_swap]
    simp only [Equiv.swap_apply_def, Fin.ext_iff]
    split_ifs <;> rfl
  intro k l hkl
  rw [hget, hget] at hkl
  exact (Equiv.swap _ _).injective (h hkl)

/-- The entries written by the fold of `inverse`: those of the indices gone
through, and before them what was there. -/
theorem entry_foldl_set {t : ByteTable} (h : Function.Injective t.get) (indices : List (Fin 256))
    (start : ByteTable) (i : Fin 256) :
    (indices.foldl (fun inv i => inv.set (t.get i).toNat (UInt8.ofNat i.val) (t.get i).toNat_lt)
        start).entry (t.get i) =
      if i ∈ indices then UInt8.ofNat i.val else start.entry (t.get i) := by
  induction indices generalizing start with
  | nil => simp
  | cons k indices ih =>
      rw [List.foldl_cons, ih]
      by_cases hi : i ∈ indices
      · simp [hi]
      · by_cases hk : i = k
        · subst hk
          simp only [hi, List.mem_cons, true_or, if_true, if_false]
          exact Vector.getElem_set_self _
        · have hne : (t.get k).toNat ≠ (t.get i).toNat :=
            fun he => hk (h (UInt8.toNat_inj.mp he)).symm
          simp only [hi, hk, List.mem_cons, or_self, if_false]
          exact Vector.getElem_set_ne _ _ hne

theorem inverse_entry_entry {t : ByteTable} (h : Function.Injective t.get) (b : UInt8) :
    t.inverse.entry (t.entry b) = b := by
  have hi := entry_foldl_set h (List.finRange 256) identity ⟨b.toNat, b.toNat_lt⟩
  rw [if_pos (List.mem_finRange _)] at hi
  exact hi.trans UInt8.ofNat_toNat

/-- Without repetition every byte is an entry, so the way forth undoes the
way back as well. -/
theorem entry_inverse_entry {t : ByteTable} (h : Function.Injective t.get) (c : UInt8) :
    t.entry (t.inverse.entry c) = c := by
  have hinj : Function.Injective fun i : Fin 256 => (⟨(t.get i).toNat, (t.get i).toNat_lt⟩ : Fin 256) :=
    fun i j hij => h (UInt8.toNat_inj.mp (Fin.mk.inj hij))
  obtain ⟨i, hi⟩ := Finite.injective_iff_surjective.mp hinj ⟨c.toNat, c.toNat_lt⟩
  have hc : t.entry (UInt8.ofNat i.val) = c := by
    rw [← UInt8.toNat_inj, ← Fin.mk.inj hi]
    simp [entry]
  rw [← hc, inverse_entry_entry h]

end ByteTable

/-! ## The substitution of a key -/

namespace Substitution

/-- The two tables undo each other. -/
structure Invertible (s : Substitution) : Prop where
  backward_forward : ∀ b, s.backward.entry (s.forward.entry b) = b
  forward_backward : ∀ b, s.forward.entry (s.backward.entry b) = b

variable (hash : Bytes → Digest)

theorem get_shuffle_injective (i : Nat) (hi : i < 256) (chain : DigestChain) {t : ByteTable}
    (h : Function.Injective t.get) : Function.Injective (shuffle hash i hi chain t).get := by
  induction i generalizing chain t with
  | zero => exact h
  | succ i ih => exact ih _ _ (ByteTable.get_swap_injective h _ _ _ _)

theorem invertible_inverse {t : ByteTable} (h : Function.Injective t.get) :
    (Substitution.mk t t.inverse).Invertible := by
  have hback := ByteTable.inverse_entry_entry h
  have hforth := ByteTable.entry_inverse_entry h
  -- the fold of `inverse` is not to be computed when the fields are compared
  generalize t.inverse = u at hback hforth ⊢
  exact ⟨hback, hforth⟩

theorem invertible_ofKeyWith (key : Bytes) : (ofKeyWith hash key).Invertible := by
  unfold ofKeyWith
  exact invertible_inverse
    (get_shuffle_injective hash _ _ _ ByteTable.get_identity_injective)

theorem invertible_ofKey (key : Bytes) : (ofKey key).Invertible :=
  invertible_ofKeyWith Sha256.digest key

variable {s : Substitution}

theorem decipher_encipher (h : s.Invertible) (plain : Bytes) :
    s.decipher (s.encipher plain) = plain := by
  simp [decipher, encipher, Function.comp_def, h.backward_forward]

theorem encipher_decipher (h : s.Invertible) (enciphered : Bytes) :
    s.encipher (s.decipher enciphered) = enciphered := by
  simp [decipher, encipher, Function.comp_def, h.forward_backward]

end Substitution

/-! ## The transforms of a sealer -/

namespace Sealer

variable {s : Sealer}

@[simp] theorem length_encode (s : Sealer) (bytes : Bytes) :
    (s.encode bytes).length = bytes.length := by
  unfold encode
  split
  · exact List.length_map _
  · rfl

@[simp] theorem length_decode (s : Sealer) (bytes : Bytes) :
    (s.decode bytes).length = bytes.length := by
  unfold decode
  split
  · exact List.length_map _
  · rfl

theorem encode_nil (s : Sealer) : s.encode [] = [] :=
  List.eq_nil_of_length_eq_zero (s.length_encode [])

@[simp] theorem encode_append (s : Sealer) (bytes more : Bytes) :
    s.encode (bytes ++ more) = s.encode bytes ++ s.encode more := by
  unfold encode
  split
  · exact List.map_append
  · rfl

@[simp] theorem decode_append (s : Sealer) (bytes more : Bytes) :
    s.decode (bytes ++ more) = s.decode bytes ++ s.decode more := by
  unfold decode
  split
  · exact List.map_append
  · rfl

theorem decode_encode (h : s.cipher.Invertible) (plain : Bytes) :
    s.decode (s.encode plain) = plain := by
  unfold decode encode
  split
  · exact Substitution.decipher_encipher h plain
  · rfl

theorem encode_decode (h : s.cipher.Invertible) (enciphered : Bytes) :
    s.encode (s.decode enciphered) = enciphered := by
  unfold decode encode
  split
  · exact Substitution.encipher_decipher h enciphered
  · rfl

end Sealer

end SealedModules
