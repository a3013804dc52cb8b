/-
# Small damage to a pack is found

No pack turns into another one by changes within four neighbouring bytes
(`eq_of_isPack`), and only packs are read.

It takes no look at which field was hit.  Both packs keep the checksum of their
section in their last four bytes, twenty bytes behind the section.  If the
sections differ, the changes stop short of these bytes; so the two sections
have one checksum, and differ in four bytes at most, which the checksum does not
let pass.  So the sections are the same, and a section has only one
trailer.
-/
import SealedModules.Proofs.Crc32
import SealedModules.Proofs.Packing

namespace SealedModules.Pack

theorem drop_length_add_append_toBytes {t : Trailer} (h : t.magic = Pack.magic) (entries : Bytes) :
    (entries ++ t.toBytes).drop (entries.length + 20) = Word.encode 4 t.checksum.toNat := by
  have hfront : (t.magic ++ Word.encode 4 t.entryCount.toNat ++
      Word.encode 8 t.sectionLength.toNat).length = 20 := by
    rw [h]
    simp only [List.length_append, Word.length_encode]
    rfl
  rw [List.drop_length_add_append, Trailer.toBytes]
  exact List.drop_left' hfront

theorem encodeSection_injective {entries entries' : List (Bytes × Bytes)}
    (h : ∀ entry ∈ entries, Fits entry) (h' : ∀ entry ∈ entries', Fits entry)
    (heq : encodeSection entries = encodeSection entries') : entries = entries' := by
  have hread : readEntries 0 (encodeSection entries) = .ok entries :=
    readEntries_eq_ok_iff.mpr ⟨h, rfl⟩
  have hread' : readEntries 0 (encodeSection entries) = .ok entries' :=
    readEntries_eq_ok_iff.mpr ⟨h', heq⟩
  exact Except.ok.inj (hread.symm.trans hread')

/-- Changes in four neighbouring bytes, some of them in the section, leave the
checksum as it was. -/
theorem section_eq_of_differWithin {entries entries' : Bytes} {t t' : Trailer}
    (hmagic : t.magic = Pack.magic) (hmagic' : t'.magic = Pack.magic)
    (hchecksum : t.checksum = checksum entries) (hchecksum' : t'.checksum = checksum entries')
    (hlength : entries.length = entries'.length) {start : Nat}
    (hwindow : Bytes.DifferWithin start 4 (entries ++ t.toBytes) (entries' ++ t'.toBytes)) :
    entries = entries' := by
  have hsections := hwindow.of_append hlength
  rcases Nat.lt_or_ge start entries.length with hstart | hstart
  · have hfield := hwindow.drop_eq (n := entries.length + 20) (by omega)
    rw [drop_length_add_append_toBytes hmagic] at hfield
    rw [hlength, drop_length_add_append_toBytes hmagic'] at hfield
    have hsame : t.checksum = t'.checksum :=
      UInt32.toNat_inj.mp
        (Word.encode_injective t.checksum.toNat_lt t'.checksum.toNat_lt hfield)
    rw [hchecksum, hchecksum'] at hsame
    exact Crc32.checksum_injective hlength hsections (congrArg UInt32.toBitVec hsame)
  · have hall := hsections.take_eq
    rwa [List.take_of_length_le hstart, List.take_of_length_le (hlength ▸ hstart)] at hall

/-- Packs of the same length that differ in four neighbouring bytes at most are
the same. -/
theorem eq_of_isPack {entries entries' : List (Bytes × Bytes)} {pack pack' : Bytes}
    (h : IsPack entries pack) (h' : IsPack entries' pack') (hlength : pack.length = pack'.length)
    {start : Nat} (hwindow : Bytes.DifferWithin start 4 pack pack') : pack = pack' := by
  have hlengths : (encodeSection entries).length = (encodeSection entries').length := by
    have := (length_of_isPack h).1
    have := (length_of_isPack h').1
    omega
  obtain ⟨hfits, t, ht, rfl⟩ := h
  obtain ⟨hfits', t', ht', rfl⟩ := h'
  have hsection : encodeSection entries = encodeSection entries' :=
    section_eq_of_differWithin ht.magic ht'.magic ht.checksum ht'.checksum hlengths hwindow
  obtain rfl := encodeSection_injective hfits hfits' hsection
  rw [(Trailer.closes_iff.mp ht).2.2, (Trailer.closes_iff.mp ht').2.2]

/-- A pack with some of four neighbouring bytes changed is refused. -/
theorem small_damage_is_refused {files : List (String × Bytes)} {o o' : Output} {size : Nat}
    (hempty : o.contents = []) (h : writeTo o files = (.ok size, o'))
    {damaged : Bytes} (hlength : damaged.length = o'.contents.length)
    (hne : damaged ≠ o'.contents) {start : Nat}
    (hwindow : Bytes.DifferWithin start 4 damaged o'.contents) :
    ∃ error, read damaged = .error error := by
  obtain ⟨pack, hpack, rfl, hext⟩ := toBytes_of_writeTo h
  rw [hext.contents_of_contents_eq_nil hempty] at hlength hne hwindow
  cases hread : read damaged with
  | error error => exact ⟨error, rfl⟩
  | ok found =>
      obtain ⟨entries, hdamaged, -⟩ := read_eq_ok_iff.mp hread
      have hsmall : pack.length < UInt64.size + trailerSize :=
        hlength ▸ (length_of_isPack hdamaged).2
      exact absurd (eq_of_isPack hdamaged (isPack_of_toBytes hpack hsmall) hlength hwindow) hne

/-- The last byte of the section and the first three of the trailer, set to
zero. -/
theorem damage_across_the_section_is_refused :
    ∃ o error, writeTo {} [("a", [7])] = (.ok 38, o) ∧ o.contents.length = 38 ∧
      read (o.contents.take 13 ++ [0, 0, 0, 0] ++ o.contents.drop 17) = .error error := by
  let pack : Bytes := [1, 0, 0, 0, 1, 0, 0, 0, 0, 0, 0, 0, 97, 7,
    77, 83, 80, 65, 67, 75, 0, 0, 1, 0, 0, 0, 14, 0, 0, 0, 0, 0, 0, 0, 202, 60, 244, 65]
  let damaged : Bytes := pack.take 13 ++ [0, 0, 0, 0] ++ pack.drop 17
  have hpack : toBytes [("a", [7])] = .ok pack := by decide +kernel
  obtain ⟨o, hwrite, hext⟩ := writeTo_of_room_eq_none (o := {}) hpack rfl
  have hcontents : o.contents = pack := hext.contents_of_contents_eq_nil rfl
  have hwindow : Bytes.DifferWithin 13 4 damaged o.contents := by
    intro i hne
    rw [hcontents] at hne
    by_cases hi : i < 38
    · have hinside : ∀ i < 38, damaged[i]? ≠ pack[i]? → 13 ≤ i ∧ i < 13 + 4 := by decide
      exact hinside i hi hne
    · rw [List.getElem?_eq_none (Nat.not_lt.mp hi), List.getElem?_eq_none (Nat.not_lt.mp hi)] at hne
      exact absurd rfl hne
  have hlength : damaged.length = o.contents.length := by rw [hcontents]; rfl
  have hne : damaged ≠ o.contents := by rw [hcontents]; decide
  obtain ⟨error, hread⟩ := small_damage_is_refused rfl hwrite hlength hne hwindow
  refine ⟨o, error, hwrite, hlength.symm, ?_⟩
  rwa [hcontents]

end SealedModules.Pack
