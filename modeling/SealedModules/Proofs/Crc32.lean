/-
# What the checksum tells apart

Two byte strings that differ in four neighbouring bytes at most, and do differ,
have different checksums (`checksum_injective`).

Shifting a bit out of the register is linear over exclusive or, and nothing
is lost by it: the polynomial has its top bit set, so the bit that went out is
the top bit of what is left (`shift_injective`).  Hence equal bytes never bring
two registers together.  Four bytes, on the other hand, are as many as a
register holds: taking them is adding them all at once and shifting them out
(`register_eq_shifts`), so different ones lead to different registers.
-/
import Mathlib.Data.List.Basic
import SealedModules.Digest.Crc32
import SealedModules.Proofs.Word

namespace SealedModules

/-! ## Registers -/

namespace Crc32

theorem shift_xor (a b : BitVec 32) : shift (a ^^^ b) = shift a ^^^ shift b := by
  have hswap : ∀ x y p : BitVec 32, (x ^^^ p) ^^^ (y ^^^ p) = x ^^^ y := by
    intro x y p
    rw [BitVec.xor_comm y p, BitVec.xor_assoc, ← BitVec.xor_assoc p p y, BitVec.xor_self,
      BitVec.zero_xor]
  unfold shift
  rw [BitVec.getLsbD_xor, BitVec.ushiftRight_xor_distrib]
  cases a.getLsbD 0 <;> cases b.getLsbD 0 <;>
    simp only [Bool.xor_false, Bool.xor_true, Bool.not_true, Bool.not_false, if_true, if_false,
      Bool.false_eq_true, hswap]
  · rw [BitVec.xor_assoc]
  · rw [BitVec.xor_assoc, BitVec.xor_assoc, BitVec.xor_comm polynomial]

theorem shifts_xor (n : Nat) (a b : BitVec 32) :
    shifts n (a ^^^ b) = shifts n a ^^^ shifts n b := by
  induction n generalizing a b with
  | zero => rfl
  | succ n ih => rw [shifts, shift_xor, ih, shifts, shifts]

theorem shifts_add (m n : Nat) (r : BitVec 32) : shifts (m + n) r = shifts n (shifts m r) := by
  induction m generalizing r with
  | zero => rw [Nat.zero_add, shifts]
  | succ m ih => rw [Nat.succ_add, shifts, ih, shifts]

theorem getLsbD_shift (r : BitVec 32) : (shift r).getLsbD 31 = r.getLsbD 0 := by
  have htop : (r >>> 1).getLsbD 31 = false := by
    rw [BitVec.getLsbD_ushiftRight]
    exact BitVec.getLsbD_of_ge r 32 (Nat.le_refl 32)
  have hpolynomial : polynomial.getLsbD 31 = true := by decide
  unfold shift
  cases r.getLsbD 0 with
  | true => simp only [if_true, BitVec.getLsbD_xor, htop, hpolynomial, Bool.false_xor]
  | false => simpa only [Bool.false_eq_true, if_false] using htop

theorem shift_injective {a b : BitVec 32} (h : shift a = shift b) : a = b := by
  have hlow : a.getLsbD 0 = b.getLsbD 0 := by
    rw [← getLsbD_shift, h, getLsbD_shift]
  have hhigh : a >>> 1 = b >>> 1 := by
    unfold shift at h
    rw [hlow] at h
    split at h
    · exact (BitVec.xor_left_inj polynomial).mp h
    · exact h
  apply BitVec.eq_of_getLsbD_eq
  intro i hi
  cases i with
  | zero => exact hlow
  | succ i =>
      have hbit := congrArg (·.getLsbD i) hhigh
      simpa only [BitVec.getLsbD_ushiftRight, Nat.add_comm 1 i] using hbit

theorem shifts_injective {n : Nat} {a b : BitVec 32} (h : shifts n a = shifts n b) : a = b := by
  induction n generalizing a b with
  | zero => exact h
  | succ n ih => exact shift_injective (ih h)

theorem register_append (r : BitVec 32) (bs cs : Bytes) :
    register r (bs ++ cs) = register (register r bs) cs :=
  List.foldl_append

theorem register_injective {a b : BitVec 32} {bs : Bytes} (h : register a bs = register b bs) :
    a = b := by
  induction bs generalizing a b with
  | nil => exact h
  | cons c bs ih =>
      have habsorb : absorb a c = absorb b c := ih h
      exact (BitVec.xor_left_inj _).mp (shifts_injective habsorb)

/-! ## Words in a register -/

/-- A zero at the low end is shifted out without a trace. -/
theorem shift_ofNat {word : Nat} (h : 2 * word < 2 ^ 32) :
    shift (BitVec.ofNat 32 (2 * word)) = BitVec.ofNat 32 word := by
  have hlow : (BitVec.ofNat 32 (2 * word)).getLsbD 0 = false := by
    rw [BitVec.getLsbD_ofNat, Nat.testBit_zero, Nat.mul_mod_right]
    rfl
  unfold shift
  rw [hlow]
  apply BitVec.eq_of_toNat_eq
  simp only [Bool.false_eq_true, if_false, BitVec.toNat_ushiftRight, BitVec.toNat_ofNat,
    Nat.shiftRight_one]
  omega

theorem shifts_ofNat {n word : Nat} (h : 2 ^ n * word < 2 ^ 32) :
    shifts n (BitVec.ofNat 32 (2 ^ n * word)) = BitVec.ofNat 32 word := by
  induction n with
  | zero => rw [shifts, Nat.pow_zero, Nat.one_mul]
  | succ n ih =>
      have hdouble : 2 ^ (n + 1) * word = 2 * (2 ^ n * word) := by
        rw [Nat.pow_succ, Nat.mul_comm _ 2, Nat.mul_assoc]
      rw [hdouble] at h ⊢
      rw [shifts, shift_ofNat h, ih (by omega)]

theorem ofNat_cons (b : UInt8) (word : Nat) :
    BitVec.ofNat 32 (b.toNat + 256 * word) =
      BitVec.ofNat 32 b.toNat ^^^ BitVec.ofNat 32 (256 * word) := by
  have hxor : b.toNat + 2 ^ 8 * word = b.toNat ^^^ (2 ^ 8 * word) := by
    apply Nat.eq_of_testBit_eq
    intro i
    rw [Nat.add_comm, Nat.testBit_two_pow_mul_add word b.toNat_lt, Nat.testBit_xor,
      Nat.testBit_two_pow_mul]
    by_cases hi : i < 8
    · rw [if_pos hi, decide_eq_false (Nat.not_le.mpr hi), Bool.false_and, Bool.xor_false]
    · have hzero : b.toNat.testBit i = false :=
        Nat.testBit_lt_two_pow (Nat.lt_of_lt_of_le b.toNat_lt
          (Nat.pow_le_pow_right (by omega) (Nat.not_lt.mp hi)))
      rw [if_neg hi, hzero, decide_eq_true (Nat.not_lt.mp hi), Bool.true_and, Bool.false_xor]
  rw [show 256 = 2 ^ 8 by rfl, hxor, BitVec.ofNat_xor]

/-- As many bytes as a register holds are taken at once. -/
theorem register_eq_shifts {bs : Bytes} (h : bs.length ≤ 4) (r : BitVec 32) :
    register r bs = shifts (8 * bs.length) (r ^^^ BitVec.ofNat 32 (Word.decode bs)) := by
  induction bs generalizing r with
  | nil => exact BitVec.xor_zero.symm
  | cons b bs ih =>
      rw [List.length_cons] at h
      have hword : 2 ^ 8 * Word.decode bs < 2 ^ 32 := by
        have hle : 256 ^ bs.length ≤ 256 ^ 3 := Nat.pow_le_pow_right (by omega) (by omega)
        have := Word.decode_lt bs
        omega
      calc register r (b :: bs)
          = shifts (8 * bs.length) (shifts 8 (r ^^^ BitVec.ofNat 32 b.toNat) ^^^
              BitVec.ofNat 32 (Word.decode bs)) := ih (by omega) _
        _ = shifts (8 * bs.length) (shifts 8 ((r ^^^ BitVec.ofNat 32 b.toNat) ^^^
              BitVec.ofNat 32 (2 ^ 8 * Word.decode bs))) := by
            rw [shifts_xor 8 (r ^^^ _), shifts_ofNat hword]
        _ = shifts (8 + 8 * bs.length) (r ^^^ BitVec.ofNat 32 (Word.decode (b :: bs))) := by
            rw [shifts_add, BitVec.xor_assoc, Word.decode, ofNat_cons]
            rfl
        _ = shifts (8 * (b :: bs).length) (r ^^^ BitVec.ofNat 32 (Word.decode (b :: bs))) := by
            rw [List.length_cons, Nat.mul_succ, Nat.add_comm]

theorem register_injective_of_length_le {r : BitVec 32} {bs cs : Bytes}
    (hlength : bs.length = cs.length) (hshort : bs.length ≤ 4)
    (h : register r bs = register r cs) : bs = cs := by
  have hlt : ∀ {ds : Bytes}, ds.length ≤ 4 → Word.decode ds < 2 ^ 32 := by
    intro ds hds
    exact Nat.lt_of_lt_of_le (Word.decode_lt ds) (Nat.pow_le_pow_right (by omega) hds)
  rw [register_eq_shifts hshort, register_eq_shifts (hlength ▸ hshort), hlength] at h
  have hword := congrArg BitVec.toNat ((BitVec.xor_right_inj r).mp (shifts_injective h))
  rw [BitVec.toNat_ofNat, BitVec.toNat_ofNat, Nat.mod_eq_of_lt (hlt hshort),
    Nat.mod_eq_of_lt (hlt (hlength ▸ hshort))] at hword
  rw [← Word.encode_decode bs, ← Word.encode_decode cs, hlength, hword]

end Crc32

/-! ## Windows -/

/-- The two byte strings differ, if at all, in the `width` bytes from `start`
on. -/
def Bytes.DifferWithin (start width : Nat) (bs cs : Bytes) : Prop :=
  ∀ i, bs[i]? ≠ cs[i]? → start ≤ i ∧ i < start + width

namespace Bytes.DifferWithin
variable {start width : Nat} {bs cs xs ys : Bytes}

theorem take_eq (h : DifferWithin start width bs cs) : bs.take start = cs.take start := by
  apply List.ext_getElem?
  intro i
  rw [List.getElem?_take, List.getElem?_take]
  split
  · by_contra hne
    have := h i hne
    omega
  · rfl

theorem drop_eq (h : DifferWithin start width bs cs) {n : Nat} (hn : start + width ≤ n) :
    bs.drop n = cs.drop n := by
  apply List.ext_getElem?
  intro i
  rw [List.getElem?_drop, List.getElem?_drop]
  by_contra hne
  have := h (n + i) hne
  omega

theorem of_append (h : DifferWithin start width (bs ++ xs) (cs ++ ys))
    (hlength : bs.length = cs.length) : DifferWithin start width bs cs := by
  intro i hne
  have hi : i < bs.length := by
    by_contra hge
    rw [List.getElem?_eq_none (by omega), List.getElem?_eq_none (by omega)] at hne
    exact hne rfl
  refine h i ?_
  rwa [List.getElem?_append_left hi, List.getElem?_append_left (hlength ▸ hi)]

end Bytes.DifferWithin

/-- Byte strings that differ in four neighbouring bytes at most are told apart by
their checksums. -/
theorem Crc32.checksum_injective {start : Nat} {bs cs : Bytes} (hlength : bs.length = cs.length)
    (hwindow : Bytes.DifferWithin start 4 bs cs) (h : checksum bs = checksum cs) : bs = cs := by
  have hsplit : ∀ ds : Bytes,
      ds = ds.take start ++ ((ds.drop start).take 4 ++ ds.drop (start + 4)) := by
    intro ds
    rw [← List.drop_drop, List.take_append_drop, List.take_append_drop]
  have hbefore := hwindow.take_eq
  have hafter := hwindow.drop_eq (Nat.le_refl (start + 4))
  have hregister : register (BitVec.allOnes 32) bs = register (BitVec.allOnes 32) cs :=
    BitVec.not_inj.mp h
  rw [hsplit bs, hsplit cs, hbefore, hafter] at hregister ⊢
  simp only [register_append] at hregister
  have hinside : (bs.drop start).take 4 = (cs.drop start).take 4 := by
    refine register_injective_of_length_le ?_ ?_ (register_injective hregister)
    · rw [List.length_take, List.length_take, List.length_drop, List.length_drop, hlength]
    · exact List.length_take_le 4 _
  rw [hinside]

end SealedModules
