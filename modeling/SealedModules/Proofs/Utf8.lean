/-
# Texts survive UTF-8

What a text is written as is read back as that text: the decoder, fed the
bytes of a character from its resting state, gives that character and is at
rest again (`decodeFrom_encodeChar`), whatever follows.  The range that the
decoder asks of a second byte never stands in the way, since the character
is no surrogate, is not written overlong and lies below U+110000.

Two more facts are needed where texts are fields of a binary form or keys of
a dictionary: only no bytes at all are read as the empty text
(`decode_eq_empty_iff`), and the order of texts is the order of what they
are written as (`encode_lt_encode`).
-/
import SealedModules.Text.Utf8

namespace SealedModules.Utf8

/-! ## The first byte of a sequence -/

theorem start_ofNat {n : Nat} (h : n < 256) :
    start (UInt8.ofNat n) =
      if n < 0x80 then ([Char.ofNat n], none)
      else if n < 0xC2 then ([replacement], none)
      else if n < 0xE0 then ([], some ⟨n - 0xC0, 0, 0x80, 0xBF⟩)
      else if n = 0xE0 then ([], some ⟨0, 1, 0xA0, 0xBF⟩)
      else if n = 0xED then ([], some ⟨0xD, 1, 0x80, 0x9F⟩)
      else if n < 0xF0 then ([], some ⟨n - 0xE0, 1, 0x80, 0xBF⟩)
      else if n = 0xF0 then ([], some ⟨0, 2, 0x90, 0xBF⟩)
      else if n < 0xF4 then ([], some ⟨n - 0xF0, 2, 0x80, 0xBF⟩)
      else if n = 0xF4 then ([], some ⟨4, 2, 0x80, 0x8F⟩)
      else ([replacement], none) := by
  simp only [start, UInt8.lt_iff_toNat_lt, ← UInt8.toNat_inj, UInt8.toNat_ofNat',
    Nat.mod_eq_of_lt h]
  rfl

theorem start_one {n : Nat} (h : n < 0x80) :
    start (UInt8.ofNat n) = ([Char.ofNat n], none) := by
  rw [start_ofNat (by omega), if_pos h]

theorem start_two {k : Nat} (h₁ : 2 ≤ k) (h₂ : k < 32) :
    start (UInt8.ofNat (k + 0xC0)) = ([], some ⟨k, 0, 0x80, 0xBF⟩) := by
  rw [start_ofNat (by omega), if_neg (by omega), if_neg (by omega), if_pos (by omega)]
  simp

theorem start_three {k : Nat} (h : k < 16) :
    start (UInt8.ofNat (k + 0xE0)) =
      ([], some ⟨k, 1, if k = 0 then 0xA0 else 0x80, if k = 13 then 0x9F else 0xBF⟩) := by
  rw [start_ofNat (by omega), if_neg (by omega), if_neg (by omega), if_neg (by omega)]
  by_cases h0 : k = 0
  · subst h0; rfl
  · by_cases h13 : k = 13
    · subst h13; rfl
    · rw [if_neg (by omega), if_neg (by omega), if_pos (by omega)]
      simp [h0, h13]

theorem start_four {k : Nat} (h : k < 5) :
    start (UInt8.ofNat (k + 0xF0)) =
      ([], some ⟨k, 2, if k = 0 then 0x90 else 0x80, if k = 4 then 0x8F else 0xBF⟩) := by
  rw [start_ofNat (by omega), if_neg (by omega), if_neg (by omega), if_neg (by omega),
    if_neg (by omega), if_neg (by omega), if_neg (by omega)]
  by_cases h0 : k = 0
  · subst h0; rfl
  · by_cases h4 : k = 4
    · subst h4; rfl
    · rw [if_neg (by omega), if_pos (by omega)]
      simp [h0, h4]

/-! ## The bytes inside a sequence -/

section Inside
variable {bits n : Nat} {low high : UInt8}

theorem extend_last (hn : n < 64) (hl : low.toNat ≤ n + 0x80) (hh : n + 0x80 ≤ high.toNat) :
    extend ⟨bits, 0, low, high⟩ (UInt8.ofNat (n + 0x80)) = ([Char.ofNat (bits * 64 + n)], none) := by
  have hb : (UInt8.ofNat (n + 0x80)).toNat = n + 0x80 := by
    simp only [UInt8.toNat_ofNat']; omega
  have hin : low ≤ UInt8.ofNat (n + 0x80) ∧ UInt8.ofNat (n + 0x80) ≤ high := by
    simp only [UInt8.le_iff_toNat_le, hb]
    exact ⟨hl, hh⟩
  simp only [extend, if_pos hin, hb, Nat.add_sub_cancel]

theorem extend_more {later : Nat} (hn : n < 64) (hl : low.toNat ≤ n + 0x80)
    (hh : n + 0x80 ≤ high.toNat) :
    extend ⟨bits, later + 1, low, high⟩ (UInt8.ofNat (n + 0x80)) =
      ([], some ⟨bits * 64 + n, later, 0x80, 0xBF⟩) := by
  have hb : (UInt8.ofNat (n + 0x80)).toNat = n + 0x80 := by
    simp only [UInt8.toNat_ofNat']; omega
  have hin : low ≤ UInt8.ofNat (n + 0x80) ∧ UInt8.ofNat (n + 0x80) ≤ high := by
    simp only [UInt8.le_iff_toNat_le, hb]
    exact ⟨hl, hh⟩
  simp only [extend, if_pos hin, hb, Nat.add_sub_cancel]

end Inside

/-! ## One character, then a text -/

theorem decodeFrom_encodeChar (c : Char) (rest : Bytes) :
    decodeFrom none (String.utf8EncodeChar c ++ rest) = c :: decodeFrom none rest := by
  obtain ⟨v, hv⟩ : ∃ v, v = c.val.toNat := ⟨_, rfl⟩
  have hc : Char.ofNat v = c := by rw [hv]; exact Char.ofNat_toNat c
  have hvalid : v < 0xD800 ∨ 0xDFFF < v ∧ v < 0x110000 := by rw [hv]; exact c.valid
  -- one case for each length of the sequence
  simp only [String.utf8EncodeChar, ← hv]
  split
  · simp only [List.cons_append, List.nil_append, decodeFrom, step]
    rw [start_one (by omega), hc]
    rfl
  · split
    · have hbits : v / 64 % 32 * 64 + v % 64 = v := by omega
      simp only [List.cons_append, List.nil_append, decodeFrom, step]
      rw [start_two (by omega) (by omega)]
      simp only [List.nil_append]
      rw [extend_last (by omega) (by simp) (by simp; omega), hbits, hc]
      rfl
    · split
      · have hbits : (v / 4096 % 16 * 64 + v / 64 % 64) * 64 + v % 64 = v := by omega
        simp only [List.cons_append, List.nil_append, decodeFrom, step]
        rw [start_three (by omega)]
        simp only [List.nil_append]
        rw [extend_more (by omega) (by split <;> simp; omega) (by split <;> simp <;> omega)]
        simp only [List.nil_append]
        rw [extend_last (by omega) (by simp) (by simp; omega), hbits, hc]
        rfl
      · have hbits : ((v / 262144 % 8 * 64 + v / 4096 % 64) * 64 + v / 64 % 64) * 64 + v % 64
            = v := by omega
        simp only [List.cons_append, List.nil_append, decodeFrom, step]
        rw [start_four (by omega)]
        simp only [List.nil_append]
        rw [extend_more (by omega) (by split <;> simp; omega) (by split <;> simp <;> omega)]
        simp only [List.nil_append]
        rw [extend_more (by omega) (by simp) (by simp; omega)]
        simp only [List.nil_append]
        rw [extend_last (by omega) (by simp) (by simp; omega), hbits, hc]
        rfl

theorem decodeChars_encodeChars (cs : List Char) :
    decodeChars (cs.flatMap String.utf8EncodeChar) = cs := by
  induction cs with
  | nil => rfl
  | cons c cs ih =>
      rw [decodeChars, List.flatMap_cons, decodeFrom_encodeChar]
      exact congrArg (c :: ·) ih

theorem decode_encode (s : String) : decode (encode s) = s := by
  rw [decode, encode, decodeChars_encodeChars, String.ofList_toList]

theorem decode?_encode (s : String) : decode? (encode s) = some s := by
  rw [decode?, decode_encode, if_pos rfl]

theorem length_encode (s : String) : (encode s).length = s.utf8ByteSize := by
  have hbytes : s.toByteArray = s.toList.utf8Encode := by
    rw [← String.toByteArray_ofList, String.ofList_toList]
  rw [← String.size_toByteArray, hbytes, List.utf8Encode, List.size_toByteArray]
  rfl

/-! ## The empty text -/

/-- A byte gives a character or leaves a sequence under way. -/
theorem step_productive (state : Option Pending) (b : UInt8) :
    (step state b).1 ≠ [] ∨ (step state b).2 ≠ none := by
  cases state with
  | none =>
      simp only [step, start]
      repeat' split
      all_goals simp
  | some p =>
      simp only [step, extend]
      repeat' split
      all_goals simp

theorem decodeFrom_ne_nil : ∀ {state : Option Pending} {bs : Bytes},
    state ≠ none ∨ bs ≠ [] → decodeFrom state bs ≠ []
  | none, [], h => absurd h (by simp)
  | some _, [], _ => by simp [decodeFrom]
  | state, b :: bs, _ => by
      rw [decodeFrom]
      intro hnil
      obtain ⟨hchars, hlater⟩ := List.append_eq_nil_iff.mp hnil
      rcases step_productive state b with h | h
      · exact h hchars
      · exact decodeFrom_ne_nil (.inl h) hlater

theorem decode_eq_empty_iff {bs : Bytes} : decode bs = "" ↔ bs = [] := by
  constructor
  · intro h
    have hchars : decodeChars bs = [] := by
      simpa [decode] using congrArg String.toList h
    by_cases hbs : bs = []
    · exact hbs
    · exact absurd hchars (decodeFrom_ne_nil (.inr hbs))
  · intro h; subst h; rfl

/-! ## The size of texts -/

theorem length_encodeChar_le (c : Char) : (String.utf8EncodeChar c).length ≤ 4 := by
  rw [String.length_utf8EncodeChar]
  exact Char.utf8Size_le_four c

/-- What the bytes of a sequence under way may be written as, one of which was
read at least. -/
def credit : Option Pending → Nat
  | none => 0
  | some _ => 3

theorem length_start_le (b : UInt8) :
    ((start b).1.flatMap String.utf8EncodeChar).length + credit (start b).2 ≤ 3 := by
  have hascii : ∀ n < 0x80, (String.utf8EncodeChar (Char.ofNat n)).length ≤ 3 := by decide
  unfold start
  repeat' split
  case isTrue h => simpa [credit] using hascii b.toNat h
  all_goals exact Nat.le_refl 3

theorem length_extend_le (p : Pending) (b : UInt8) :
    ((extend p b).1.flatMap String.utf8EncodeChar).length + credit (extend p b).2 ≤ 6 := by
  unfold extend
  split
  · split
    · have hchar := length_encodeChar_le (Char.ofNat (p.bits * 64 + (b.toNat - 0x80)))
      rw [List.flatMap_singleton, credit]
      omega
    · exact show 3 ≤ 6 by decide
  · have hstart := length_start_le b
    have hinvalid : (String.utf8EncodeChar replacement).length = 3 := by decide
    rw [List.flatMap_cons, List.length_append, hinvalid, Nat.add_assoc]
    exact Nat.add_le_add_left hstart 3

theorem length_decodeFrom_le (state : Option Pending) (bs : Bytes) :
    ((decodeFrom state bs).flatMap String.utf8EncodeChar).length ≤
      3 * bs.length + credit state := by
  induction bs generalizing state with
  | nil =>
      cases state with
      | none => exact Nat.le_refl _
      | some p => exact Nat.le_of_eq rfl
  | cons b bs ih =>
      have hlater := ih (step state b).2
      have hstep : ((step state b).1.flatMap String.utf8EncodeChar).length +
          credit (step state b).2 ≤ 3 + credit state := by
        cases state with
        | none => exact length_start_le b
        | some p => exact length_extend_le p b
      rw [decodeFrom, List.flatMap_append, List.length_append, List.length_cons]
      omega

/-- A text that was read is written as at most three bytes for each byte of
what it was read from. -/
theorem length_encode_decode_le (bs : Bytes) : (encode (decode bs)).length ≤ 3 * bs.length := by
  rw [encode, decode, String.toList_ofList]
  exact length_decodeFrom_le none bs

theorem decodeChars_replicate (n : Nat) :
    decodeChars (List.replicate n 0xFF) = List.replicate n replacement := by
  induction n with
  | zero => rfl
  | succ n ih => exact congrArg (replacement :: ·) ih

/-- The bound is met by bytes none of which can stand in a text. -/
theorem length_encode_decode_replicate (n : Nat) :
    (encode (decode (List.replicate n 0xFF))).length = 3 * n := by
  have hinvalid : (String.utf8EncodeChar replacement).length = 3 := by decide
  rw [encode, decode, String.toList_ofList, decodeChars_replicate, List.length_flatMap,
    List.map_replicate, List.sum_replicate_nat, hinvalid, Nat.mul_comm]

/-! ## The order of texts -/

theorem ofNat_cons_lt {m n : Nat} {bs cs : Bytes} (hn : n < 256) (h : m < n ∨ m = n ∧ bs < cs) :
    UInt8.ofNat m :: bs < UInt8.ofNat n :: cs := by
  rw [List.cons_lt_cons_iff]
  rcases h with h | ⟨rfl, h⟩
  · left
    simp only [UInt8.lt_iff_toNat_lt, UInt8.toNat_ofNat']
    omega
  · exact .inr ⟨rfl, h⟩

/-- A smaller character is written as smaller bytes, whatever follows. -/
theorem encodeChar_lt {c d : Char} (h : c < d) (x y : Bytes) :
    String.utf8EncodeChar c ++ x < String.utf8EncodeChar d ++ y := by
  obtain ⟨v, hv⟩ : ∃ v, v = c.val.toNat := ⟨_, rfl⟩
  obtain ⟨w, hw⟩ : ∃ w, w = d.val.toNat := ⟨_, rfl⟩
  have hvw : v < w := by rw [hv, hw]; exact UInt32.lt_iff_toNat_lt.mp h
  have hmax : w < 0xD800 ∨ 0xDFFF < w ∧ w < 0x110000 := by rw [hw]; exact d.valid
  -- a longer sequence has a greater first byte; sequences of one length compare digit by digit
  simp only [String.utf8EncodeChar, ← hv, ← hw]
  split
  · repeat' split
    all_goals exact ofNat_cons_lt (by omega) (.inl (by omega))
  · rw [if_neg (show ¬ w ≤ 0x7F by omega)]
    split
    · split
      · rcases Nat.lt_or_ge (v / 64) (w / 64) with h₁ | h₁
        · exact ofNat_cons_lt (by omega) (.inl (by omega))
        · refine ofNat_cons_lt (by omega) (.inr ⟨by omega, ?_⟩)
          exact ofNat_cons_lt (by omega) (.inl (by omega))
      · split
        all_goals exact ofNat_cons_lt (by omega) (.inl (by omega))
    · rw [if_neg (show ¬ w ≤ 0x7FF by omega)]
      split
      · split
        · rcases Nat.lt_or_ge (v / 4096) (w / 4096) with h₁ | h₁
          · exact ofNat_cons_lt (by omega) (.inl (by omega))
          · refine ofNat_cons_lt (by omega) (.inr ⟨by omega, ?_⟩)
            rcases Nat.lt_or_ge (v / 64) (w / 64) with h₂ | h₂
            · exact ofNat_cons_lt (by omega) (.inl (by omega))
            · refine ofNat_cons_lt (by omega) (.inr ⟨by omega, ?_⟩)
              exact ofNat_cons_lt (by omega) (.inl (by omega))
        · exact ofNat_cons_lt (by omega) (.inl (by omega))
      · rw [if_neg (show ¬ w ≤ 0xFFFF by omega)]
        rcases Nat.lt_or_ge (v / 262144) (w / 262144) with h₁ | h₁
        · exact ofNat_cons_lt (by omega) (.inl (by omega))
        · refine ofNat_cons_lt (by omega) (.inr ⟨by omega, ?_⟩)
          rcases Nat.lt_or_ge (v / 4096) (w / 4096) with h₂ | h₂
          · exact ofNat_cons_lt (by omega) (.inl (by omega))
          · refine ofNat_cons_lt (by omega) (.inr ⟨by omega, ?_⟩)
            rcases Nat.lt_or_ge (v / 64) (w / 64) with h₃ | h₃
            · exact ofNat_cons_lt (by omega) (.inl (by omega))
            · refine ofNat_cons_lt (by omega) (.inr ⟨by omega, ?_⟩)
              exact ofNat_cons_lt (by omega) (.inl (by omega))

theorem encodeChars_lt {cs ds : List Char} (h : cs < ds) :
    cs.flatMap String.utf8EncodeChar < ds.flatMap String.utf8EncodeChar := by
  induction cs generalizing ds with
  | nil =>
      cases ds with
      | nil => exact absurd h (List.not_lt_nil [])
      | cons d ds =>
          obtain ⟨b, bs, hb⟩ := List.exists_cons_of_ne_nil (String.utf8EncodeChar_ne_nil (c := d))
          rw [List.flatMap_cons, hb]
          exact List.nil_lt_cons _ _
  | cons c cs ih =>
      cases ds with
      | nil => exact absurd h (List.not_lt_nil (c :: cs))
      | cons d ds =>
          rw [List.flatMap_cons, List.flatMap_cons]
          rcases List.cons_lt_cons_iff.mp h with hchar | ⟨rfl, htail⟩
          · exact encodeChar_lt hchar _ _
          · exact List.append_left_lt (ih htail)

theorem encode_lt_encode {s t : String} (h : s < t) : encode s < encode t :=
  encodeChars_lt h

end SealedModules.Utf8
