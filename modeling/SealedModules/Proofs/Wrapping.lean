/-
# Wrapping and unwrapping undo each other

An envelope is found in front of a byte string exactly if its twelve bytes
are what the string opens with (`parse?_eq_some_iff`), so there is one way
of writing a header and none of reading another.  From this the three places
that look at an envelope are brought to one description: `wrap` puts a
header before the enciphered payload, `unwrap` succeeds on a header whose
length is that of what follows it, and `classify` says "sealed" to just
that.  The cipher being a permutation in both directions, `unwrap` gives a
payload only for what `wrap` makes of it, byte for byte.

The length of the payload is read off the header before anything is
subtracted: whatever fails with a length fails on at least twelve bytes.
-/
import SealedModules.Proofs.Cipher
import SealedModules.Proofs.Word

namespace SealedModules

/-! ## The header -/

namespace Envelope

/-- A written envelope is found at the start of whatever it is put before. -/
theorem parse?_toBytes_append (e : Envelope) (rest : Bytes) :
    parse? (e.toBytes ++ rest) = some e := by
  have hn : e.payloadLength.toNat < 256 ^ 4 := e.payloadLength.toNat_lt
  have hd : (e.toBytes ++ rest).drop 8 = Word.encode 4 e.payloadLength.toNat ++ rest := by
    simp [toBytes, magic]
  have ht : (e.toBytes ++ rest).take 8 = magic := by simp [toBytes, magic]
  have hl : ¬ (e.toBytes ++ rest).length < size := by simp [size]
  simp only [parse?, ht, hd, hl, ne_eq, not_true_eq_false, or_false, if_false, Option.some.injEq]
  rw [List.take_left' (by simp), Word.decode_encode hn]
  simp

/-- The bytes open with a whole header that has the magic. -/
def Opens (bytes : Bytes) : Prop := size ≤ bytes.length ∧ bytes.take 8 = magic

/-- The payload length that a header at the start of the bytes declares. -/
def declared (bytes : Bytes) : Nat := Word.decode ((bytes.drop 8).take 4)

theorem declared_lt (bytes : Bytes) : declared bytes < UInt32.size :=
  Word.decode_take_lt 4 (bytes.drop 8)

theorem parse?_of_opens {bytes : Bytes} (h : Opens bytes) :
    parse? bytes = some ⟨UInt32.ofNat (declared bytes)⟩ := by
  have hnot : ¬ (bytes.length < size ∨ bytes.take 8 ≠ magic) := by
    rintro (hl | hm)
    · exact absurd h.1 (Nat.not_le.mpr hl)
    · exact hm h.2
  rw [parse?, if_neg hnot]
  rfl

theorem parse?_eq_none_iff {bytes : Bytes} : parse? bytes = none ↔ ¬ Opens bytes := by
  constructor
  · intro hnone hopens
    rw [parse?_of_opens hopens] at hnone
    cases hnone
  · intro hnot
    refine if_pos ?_
    by_cases hl : bytes.length < size
    · exact .inl hl
    · exact .inr fun hm => hnot ⟨Nat.not_lt.mp hl, hm⟩

theorem opens_of_parse? {bytes : Bytes} {e : Envelope} (h : parse? bytes = some e) :
    Opens bytes := by
  by_cases hopens : Opens bytes
  · exact hopens
  · rw [parse?_eq_none_iff.mpr hopens] at h
    cases h

theorem payloadLength_of_parse? {bytes : Bytes} {e : Envelope} (h : parse? bytes = some e) :
    e.payloadLength.toNat = declared bytes := by
  rw [parse?_of_opens (opens_of_parse? h)] at h
  obtain rfl := Option.some.inj h
  exact UInt32.toNat_ofNat_of_lt' (declared_lt bytes)

theorem parse?_eq_some_iff {bytes : Bytes} {e : Envelope} :
    parse? bytes = some e ↔ bytes = e.toBytes ++ bytes.drop size := by
  constructor
  · intro h
    obtain ⟨hl, hm⟩ := opens_of_parse? h
    have hfield : Word.encode 4 e.payloadLength.toNat = (bytes.drop 8).take 4 := by
      rw [payloadLength_of_parse? h, declared, Word.encode_decode_take]
      simp only [List.length_drop, size] at hl ⊢
      omega
    calc bytes
        = bytes.take 8 ++ ((bytes.drop 8).take 4 ++ (bytes.drop 8).drop 4) := by
          rw [List.take_append_drop, List.take_append_drop]
      _ = e.toBytes ++ bytes.drop size := by
          rw [hm, ← hfield, List.drop_drop, toBytes, List.append_assoc]
          rfl
  · intro h
    rw [h]
    exact parse?_toBytes_append e _

theorem parse?_take_size (bytes : Bytes) : parse? (bytes.take size) = parse? bytes := by
  have htake : (bytes.take size).take 8 = bytes.take 8 := by
    rw [List.take_take]; rfl
  have hdrop : ((bytes.take size).drop 8).take 4 = (bytes.drop 8).take 4 := by
    rw [List.drop_take, List.take_take]; rfl
  have hlength : (bytes.take size).length < size ↔ bytes.length < size := by
    rw [List.length_take]; omega
  simp only [parse?, htake, hdrop, hlength]

theorem matchesLength_iff {e : Envelope} {total : Nat} :
    e.matchesLength total = true ↔ total = size + e.payloadLength.toNat := by
  simp only [matchesLength, decide_eq_true_eq]
  omega

end Envelope

/-! ## The three places that look at an envelope -/

namespace Sealer

variable {s : Sealer}

/-- The header that is put before a payload. -/
def header (payload : Bytes) : Envelope := ⟨UInt32.ofNat payload.length⟩

theorem payloadLength_header {payload : Bytes} (h : payload.length < UInt32.size) :
    (header payload).payloadLength.toNat = payload.length :=
  UInt32.toNat_ofNat_of_lt' h

theorem header_eq_of_length {e : Envelope} {payload : Bytes}
    (h : e.payloadLength.toNat = payload.length) : header payload = e := by
  rw [header, ← h, UInt32.ofNat_toNat]

theorem wrap_eq_ok_iff {payload bytes : Bytes} :
    s.wrap payload = .ok bytes ↔
      s.isProtecting = true ∧ payload.length < UInt32.size ∧
        bytes = (header payload).toBytes ++ s.encode payload := by
  unfold wrap
  cases s.isProtecting with
  | false => simp
  | true =>
      simp only [Bool.not_true, Bool.false_eq_true, if_false, true_and]
      split
      · rename_i hl
        exact ⟨fun h => (nomatch h), fun h => absurd h.1 (Nat.not_lt.mpr hl)⟩
      · rename_i hl
        rw [Except.ok.injEq]
        exact ⟨fun h => ⟨Nat.not_le.mp hl, h.symm⟩, fun h => h.2.symm⟩

theorem unwrap_eq_ok_iff {bytes payload : Bytes} :
    s.unwrap bytes = .ok payload ↔
      s.isProtecting = true ∧ ∃ e : Envelope, Envelope.parse? bytes = some e ∧
        e.matchesLength bytes.length = true ∧ payload = s.decode (bytes.drop Envelope.size) := by
  unfold unwrap
  cases s.isProtecting with
  | false => simp
  | true =>
      cases Envelope.parse? bytes with
      | none => simp
      | some e =>
          simp only [Bool.not_true, Bool.false_eq_true, if_false, true_and, Option.some.injEq,
            exists_eq_left']
          split
          · rename_i hm
            rw [Except.ok.injEq]
            exact ⟨fun h => ⟨hm, h.symm⟩, fun h => h.2.symm⟩
          · rename_i hm
            exact ⟨fun h => (nomatch h), fun h => absurd h.1 hm⟩

theorem classify_eq_sealedModule_iff {lead : Bytes} {total : Nat} :
    s.classify lead total = .sealedModule ↔
      s.isProtecting = true ∧ ∃ e : Envelope, Envelope.parse? lead = some e ∧
        e.matchesLength total = true := by
  unfold classify
  split
  · rename_i h
    simpa [Option.any_eq_true] using h
  · rename_i h
    refine ⟨fun hc => ?_, fun hs => absurd ?_ h⟩
    · split at hc <;> cases hc
    · simpa [Option.any_eq_true] using hs

theorem unwrap_isOk_iff {bytes : Bytes} :
    (∃ payload, s.unwrap bytes = .ok payload) ↔ s.classifyWhole bytes = .sealedModule := by
  rw [classifyWhole, classify_eq_sealedModule_iff, Envelope.parse?_take_size]
  constructor
  · rintro ⟨payload, h⟩
    obtain ⟨hp, e, he, hm, -⟩ := unwrap_eq_ok_iff.mp h
    exact ⟨hp, e, he, hm⟩
  · rintro ⟨hp, e, he, hm⟩
    exact ⟨_, unwrap_eq_ok_iff.mpr ⟨hp, e, he, hm, rfl⟩⟩

/-- Unwrapping gives a payload exactly for what wrapping makes of it. -/
theorem unwrap_eq_ok_iff_wrap (h : s.cipher.Invertible) {bytes payload : Bytes} :
    s.unwrap bytes = .ok payload ↔ s.wrap payload = .ok bytes := by
  rw [unwrap_eq_ok_iff, wrap_eq_ok_iff]
  constructor
  · rintro ⟨hp, e, he, hm, rfl⟩
    have hbytes := Envelope.parse?_eq_some_iff.mp he
    have hlength : e.payloadLength.toNat = (s.decode (bytes.drop Envelope.size)).length := by
      have := Envelope.matchesLength_iff.mp hm
      rw [length_decode, List.length_drop]
      omega
    refine ⟨hp, hlength ▸ e.payloadLength.toNat_lt, ?_⟩
    rw [header_eq_of_length hlength, encode_decode h]
    exact hbytes
  · rintro ⟨hp, hl, rfl⟩
    refine ⟨hp, header payload, Envelope.parse?_toBytes_append _ _, ?_, ?_⟩
    · rw [Envelope.matchesLength_iff, payloadLength_header hl]
      simp
    · rw [List.drop_left' (Envelope.length_toBytes _), decode_encode h]

/-! ## What unwrapping fails with -/

theorem unwrap_eq_notSealed_iff (hp : s.isProtecting = true) {bytes : Bytes} :
    s.unwrap bytes = .error .notSealed ↔ ¬ Envelope.Opens bytes := by
  rw [← Envelope.parse?_eq_none_iff]
  unfold unwrap
  cases Envelope.parse? bytes with
  | none => simp [hp]
  | some e => cases hm : e.matchesLength bytes.length <;> simp [hp, hm]

theorem unwrap_eq_error (hp : s.isProtecting = true) {bytes : Bytes} {error : SealError}
    (h : s.unwrap bytes = .error error) (hopens : Envelope.Opens bytes) :
    error = .lengthMismatch (Envelope.declared bytes) (bytes.length - Envelope.size) ∧
      Envelope.declared bytes ≠ bytes.length - Envelope.size := by
  obtain ⟨e, he⟩ : ∃ e, Envelope.parse? bytes = some e := ⟨_, Envelope.parse?_of_opens hopens⟩
  have hdeclared := Envelope.payloadLength_of_parse? he
  unfold unwrap at h
  rw [he] at h
  cases hm : e.matchesLength bytes.length with
  | true => simp [hp, hm] at h
  | false =>
      have hne : ¬ bytes.length = Envelope.size + e.payloadLength.toNat := by
        rw [← Envelope.matchesLength_iff, hm]
        exact Bool.false_ne_true
      simp only [hp, hm, Bool.not_true, Bool.false_eq_true, if_false, Except.error.injEq] at h
      refine ⟨by rw [← h, hdeclared], ?_⟩
      have := hopens.1
      omega

theorem wrap_of_not_protecting (hp : s.isProtecting = false) (payload : Bytes) :
    s.wrap payload = .error .protectionDisabled := by
  simp [wrap, hp]

theorem unwrap_of_not_protecting (hp : s.isProtecting = false) (bytes : Bytes) :
    s.unwrap bytes = .error .protectionDisabled := by
  simp [unwrap, hp]

/-! ## The law of wrapping -/

/-- Under every key, unwrapping accepts exactly what wrapping produces, which
is exactly what is classified as sealed, and its failures say what is wrong
with the header; with protection off nothing is sealed. -/
theorem unwrapping_inverts_wrapping (flags : Flags) (key : Bytes) (signature : UInt8) :
    let s : Sealer := ⟨flags, Substitution.ofKey key, signature⟩
    (s.isProtecting = true →
      (∀ payload, payload.length < UInt32.size → ∃ bytes, s.wrap payload = .ok bytes) ∧
      (∀ bytes payload, s.unwrap bytes = .ok payload ↔ s.wrap payload = .ok bytes) ∧
      ∀ bytes,
        ((∃ payload, s.unwrap bytes = .ok payload) ↔
          s.classify (bytes.take Envelope.size) bytes.length = .sealedModule) ∧
        (s.unwrap bytes = .error .notSealed ↔ ¬ Envelope.Opens bytes) ∧
        (∀ error, s.unwrap bytes = .error error → error ≠ .notSealed →
          Envelope.size ≤ bytes.length ∧
            error = .lengthMismatch (Envelope.declared bytes)
              (bytes.length - Envelope.size))) ∧
    (s.isProtecting = false →
      (∀ payload, s.wrap payload = .error .protectionDisabled) ∧
      (∀ bytes, s.unwrap bytes = .error .protectionDisabled) ∧
      ∀ lead total, s.classify lead total ≠ .sealedModule) := by
  intro s
  have hcipher : s.cipher.Invertible := Substitution.invertible_ofKey key
  constructor
  · intro hp
    refine ⟨fun payload hl => ⟨_, wrap_eq_ok_iff.mpr ⟨hp, hl, rfl⟩⟩,
      fun bytes payload => unwrap_eq_ok_iff_wrap hcipher, fun bytes => ⟨unwrap_isOk_iff,
        unwrap_eq_notSealed_iff hp, ?_⟩⟩
    intro error herror hne
    by_cases hopens : Envelope.Opens bytes
    · exact ⟨hopens.1, (unwrap_eq_error hp herror hopens).1⟩
    · rw [(unwrap_eq_notSealed_iff hp).mpr hopens] at herror
      exact absurd (Except.error.inj herror).symm hne
  · intro hp
    refine ⟨wrap_of_not_protecting hp, unwrap_of_not_protecting hp, ?_⟩
    intro lead total hsealed
    have := (classify_eq_sealedModule_iff.mp hsealed).1
    exact Bool.noConfusion (hp.symm.trans this)

/-- The law at a payload of two bytes, at a header that declares five bytes
and is followed by one, and with protection off. -/
theorem unwrapping_inverts_wrapping_examples :
    let s : Sealer := ⟨{}, Substitution.ofKey Sealer.defaultKey, Sealer.defaultSignature⟩
    let plain : Sealer := ⟨⟨false, true⟩, Substitution.ofKey Sealer.defaultKey, 0x23⟩
    let payload : Bytes := [0x2D, 0x2D]
    let wrong : Bytes := Envelope.magic ++ [5, 0, 0, 0, 0x41]
    s.isProtecting = true ∧ payload.length < UInt32.size ∧
      (∃ bytes, s.wrap payload = .ok bytes ∧ s.unwrap bytes = .ok payload ∧
        s.classify (bytes.take Envelope.size) bytes.length = .sealedModule) ∧
      s.unwrap wrong = .error (.lengthMismatch 5 1) ∧
      SealError.lengthMismatch 5 1 ≠ .notSealed ∧ Envelope.size ≤ wrong.length ∧
      plain.isProtecting = false ∧ plain.wrap payload = .error .protectionDisabled := by
  intro s plain payload wrong
  obtain ⟨hwraps, hinverse, hbytes⟩ :=
    (unwrapping_inverts_wrapping {} Sealer.defaultKey Sealer.defaultSignature).1 rfl
  obtain ⟨bytes, hwrap⟩ := hwraps payload (by decide)
  have hunwrap : s.unwrap bytes = .ok payload := (hinverse bytes payload).mpr hwrap
  have hwrong : s.unwrap wrong = .error (.lengthMismatch 5 1) := by rfl
  refine ⟨rfl, by decide, ⟨bytes, hwrap, hunwrap, (hbytes bytes).1.mp ⟨payload, hunwrap⟩⟩, hwrong,
    by decide, ((hbytes wrong).2.2 _ hwrong (by decide)).1, rfl, ?_⟩
  exact ((unwrapping_inverts_wrapping ⟨false, true⟩ Sealer.defaultKey 0x23).2 rfl).1 payload

end Sealer

end SealedModules
