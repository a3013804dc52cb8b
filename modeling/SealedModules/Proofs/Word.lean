/-
# Words, written and read

On as many bytes as a word has, writing and reading are inverse to each
other: a number that fits is read back (`decode_encode`), and bytes are
written back as they were (`encode_decode`).  So a word is read off the front
of a byte string exactly if it is written there.
-/
import Mathlib.Algebra.Group.Nat.Defs
import SealedModules.Bytes.Word

namespace SealedModules.Word

theorem decode_lt (bs : Bytes) : decode bs < 256 ^ bs.length := by
  induction bs with
  | nil => simp [decode]
  | cons b bs ih =>
      have hb := b.toNat_lt
      simp only [decode, List.length_cons, Nat.pow_succ]
      omega

/-- What is read back of a number are its low-order bytes. -/
theorem decode_encode_mod (width n : Nat) : decode (encode width n) = n % 256 ^ width := by
  induction width generalizing n with
  | zero => exact (Nat.mod_one n).symm
  | succ width ih =>
      have hlow : (UInt8.ofNat n).toNat = n % 256 := UInt8.toNat_ofNat'
      rw [encode, decode, ih, hlow, Nat.pow_succ' (m := 256), Nat.mod_mul]

theorem decode_encode {width n : Nat} (h : n < 256 ^ width) : decode (encode width n) = n := by
  rw [decode_encode_mod, Nat.mod_eq_of_lt h]

theorem encode_injective {width m n : Nat} (hm : m < 256 ^ width) (hn : n < 256 ^ width)
    (h : encode width m = encode width n) : m = n := by
  rw [← decode_encode hm, h, decode_encode hn]

theorem encode_decode (bs : Bytes) : encode bs.length (decode bs) = bs := by
  induction bs with
  | nil => rfl
  | cons b bs ih =>
      have hb := b.toNat_lt
      have hq : (b.toNat + 256 * decode bs) / 256 = decode bs := by omega
      have hr : UInt8.ofNat (b.toNat + 256 * decode bs) = b := by
        apply UInt8.toNat_inj.mp
        simp only [UInt8.toNat_ofNat']
        omega
      simp [encode, decode, hq, hr, ih]

theorem encode_decode_take {width : Nat} {bytes : Bytes} (h : width ≤ bytes.length) :
    encode width (decode (bytes.take width)) = bytes.take width := by
  have hback := encode_decode (bytes.take width)
  rwa [List.length_take, Nat.min_eq_left h] at hback

theorem decode_take_lt (width : Nat) (bytes : Bytes) :
    decode (bytes.take width) < 256 ^ width := by
  have hpow : 256 ^ (bytes.take width).length ≤ 256 ^ width :=
    Nat.pow_le_pow_right (by omega) (List.length_take_le _ _)
  exact Nat.lt_of_lt_of_le (decode_lt _) hpow

theorem decode_take_append {width n : Nat} (h : n < 256 ^ width) (rest : Bytes) :
    decode ((encode width n ++ rest).take width) = n := by
  rw [List.take_left' (length_encode width n), decode_encode h]

/-- A word is read exactly if it is written there. -/
theorem read?_eq_some_iff {width n : Nat} {bytes rest : Bytes} :
    read? width bytes = some (n, rest) ↔
      n < 256 ^ width ∧ bytes = encode width n ++ rest := by
  unfold read?
  constructor
  · intro h
    split at h
    · cases h
    · rename_i hl
      obtain ⟨rfl, rfl⟩ := Prod.mk.inj (Option.some.inj h)
      exact ⟨decode_take_lt width bytes,
        by rw [encode_decode_take (Nat.not_lt.mp hl), List.take_append_drop]⟩
  · rintro ⟨hn, rfl⟩
    rw [if_neg (by simp), decode_take_append hn, List.drop_left' (by simp)]

end SealedModules.Word
