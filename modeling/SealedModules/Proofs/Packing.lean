/-
# What a pack is

A byte string is the pack of some entries if it is their section followed by
the trailer that closes it (`IsPack`).  Reading accepts exactly these, and gives
the entries (`readRaw_eq_ok_iff`), so no byte string is the pack of two lists.

The section is where this takes an induction: entries are read one by one as
long as there are bytes, and reading one is inverse to writing one in front of
what follows (`readEntries_encodeEntry_append`, `encodeEntry_append_of_le`).
Around it there is one way of writing a trailer, found at a known distance from
the end (`Trailer.ofBytes?_eq_some_iff`).

Files have texts for paths, and these are packed as UTF-8.  So what files are
packed as is a pack (`isPack_of_toBytes`), and every pack whose paths are UTF-8
comes about in this way (`toBytes_of_isPack`).
-/
import SealedModules.Asset.Pack
import SealedModules.Proofs.Utf8
import SealedModules.Proofs.Word
import SealedModules.Proofs.Writing

namespace SealedModules.Pack

/-! ## Sections -/

/-- The lengths of an entry can be written in front of it. -/
def Fits (entry : Bytes × Bytes) : Prop :=
  entry.1.length < UInt32.size ∧ entry.2.length < UInt64.size

theorem length_encodeEntry (path data : Bytes) :
    (encodeEntry path data).length = entryHeaderSize + (path.length + data.length) := by
  simp only [encodeEntry, List.length_append, Word.length_encode, entryHeaderSize]
  omega

theorem encodeSection_cons (entry : Bytes × Bytes) (entries : List (Bytes × Bytes)) :
    encodeSection (entry :: entries) =
      encodeEntry entry.1 entry.2 ++ encodeSection entries :=
  List.flatMap_cons

theorem encodeEntry_append_of_le {bytes : Bytes} (hheader : entryHeaderSize ≤ bytes.length) :
    let pathLength := Word.decode (bytes.take 4)
    let dataLength := Word.decode ((bytes.drop 4).take 8)
    let body := bytes.drop entryHeaderSize
    pathLength + dataLength ≤ body.length →
      Fits (body.take pathLength, (body.drop pathLength).take dataLength) ∧
        encodeEntry (body.take pathLength) ((body.drop pathLength).take dataLength) ++
          body.drop (pathLength + dataLength) = bytes := by
  intro pathLength dataLength body hbody
  have hpath : (body.take pathLength).length = pathLength := by
    rw [List.length_take]
    omega
  have hdata : ((body.drop pathLength).take dataLength).length = dataLength := by
    rw [List.length_take, List.length_drop]
    omega
  have hrest : body.drop (pathLength + dataLength) = (body.drop pathLength).drop dataLength :=
    List.drop_drop.symm
  unfold entryHeaderSize at hheader
  have hfirst : Word.encode 4 pathLength = bytes.take 4 :=
    Word.encode_decode_take (by omega)
  have hsecond : Word.encode 8 dataLength = (bytes.drop 4).take 8 :=
    Word.encode_decode_take (by rw [List.length_drop]; omega)
  constructor
  · rw [Fits, hpath, hdata]
    exact ⟨Word.decode_take_lt 4 bytes, Word.decode_take_lt 8 (bytes.drop 4)⟩
  · calc encodeEntry (body.take pathLength) ((body.drop pathLength).take dataLength) ++
          body.drop (pathLength + dataLength)
        = bytes.take 4 ++ ((bytes.drop 4).take 8 ++ (body.take pathLength ++
            ((body.drop pathLength).take dataLength ++
              (body.drop pathLength).drop dataLength))) := by
          rw [encodeEntry, hpath, hdata, hfirst, hsecond, hrest]
          simp only [List.append_assoc]
      _ = bytes.take 4 ++ ((bytes.drop 4).take 8 ++ (bytes.drop 4).drop 8) := by
          rw [List.take_append_drop, List.take_append_drop, List.drop_drop]
          rfl
      _ = bytes := by rw [List.take_append_drop, List.take_append_drop]

theorem readEntries_encodeEntry_append {entry : Bytes × Bytes} (h : Fits entry) (offset : Nat)
    (rest : Bytes) :
    readEntries offset (encodeEntry entry.1 entry.2 ++ rest) =
      (readEntries (offset + entryHeaderSize + (entry.1.length + entry.2.length)) rest).map
        (entry :: ·) := by
  obtain ⟨path, data⟩ := entry
  have hlength : (encodeEntry path data ++ rest).length =
      entryHeaderSize + (path.length + data.length) + rest.length := by
    rw [List.length_append, length_encodeEntry]
  have hsplit : encodeEntry path data ++ rest =
      Word.encode 4 path.length ++ (Word.encode 8 data.length ++ (path ++ (data ++ rest))) := by
    simp only [encodeEntry, List.append_assoc]
  have hpath : Word.decode ((encodeEntry path data ++ rest).take 4) = path.length := by
    rw [hsplit]
    exact Word.decode_take_append h.1 _
  have hdata : Word.decode (((encodeEntry path data ++ rest).drop 4).take 8) = data.length := by
    rw [hsplit, List.drop_left' (Word.length_encode 4 _)]
    exact Word.decode_take_append h.2 _
  have hbody : (encodeEntry path data ++ rest).drop entryHeaderSize = path ++ (data ++ rest) := by
    rw [hsplit, ← List.append_assoc]
    exact List.drop_left' (by simp [entryHeaderSize])
  have hrest : (path ++ (data ++ rest)).drop (path.length + data.length) = rest := by
    rw [← List.drop_drop, List.drop_left, List.drop_left]
  have hne : encodeEntry path data ++ rest ≠ [] := by
    intro hnil
    rw [hnil, List.length_nil, entryHeaderSize] at hlength
    omega
  rw [readEntries, if_neg hne, if_neg (by rw [hlength]; omega)]
  simp only [hpath, hdata, hbody, hrest, List.take_left, List.drop_left]
  rw [if_neg (by simp only [List.length_append]; omega)]
  cases readEntries (offset + entryHeaderSize + (path.length + data.length)) rest with
  | error flaw => rfl
  | ok entries => rfl

/-- A section is read exactly if it is what its entries are written as. -/
theorem readEntries_eq_ok_iff {offset : Nat} {bytes : Bytes} {entries : List (Bytes × Bytes)} :
    readEntries offset bytes = .ok entries ↔
      (∀ entry ∈ entries, Fits entry) ∧ bytes = encodeSection entries := by
  constructor
  · fun_induction readEntries offset bytes generalizing entries with
    | case1 offset =>
        intro h
        obtain rfl := Except.ok.inj h
        exact ⟨fun _ hmem => absurd hmem List.not_mem_nil, rfl⟩
    | case2 => exact nofun
    | case3 => exact nofun
    | case4 => exact nofun
    | case5 offset bytes hne hheader pathLength dataLength body size hbody later hlater =>
        rename_i ih
        intro h
        obtain rfl := Except.ok.inj h
        obtain ⟨hfits, hbytes⟩ :=
          encodeEntry_append_of_le (Nat.not_lt.mp hheader) (Nat.not_lt.mp hbody)
        obtain ⟨hall, hrest⟩ := ih hlater
        refine ⟨?_, ?_⟩
        · intro entry hmem
          rcases List.mem_cons.mp hmem with rfl | hmem
          · exact hfits
          · exact hall entry hmem
        · rw [encodeSection_cons, ← hrest]
          exact hbytes.symm
  · rintro ⟨hall, rfl⟩
    induction entries generalizing offset with
    | nil =>
        rw [encodeSection, List.flatMap_nil, readEntries, if_pos rfl]
    | cons entry entries ih =>
        have hfits : Fits entry := hall entry List.mem_cons_self
        have hlater := fun later hmem => hall later (List.mem_cons_of_mem entry hmem)
        rw [encodeSection_cons, readEntries_encodeEntry_append hfits, ih hlater]
        rfl

/-! ## Trailers -/

namespace Trailer

/-- The fields of a trailer, from where they stand. -/
def ofFields (bytes : Bytes) : Trailer where
  magic := bytes.take 8
  entryCount := UInt32.ofNat (Word.decode ((bytes.drop 8).take 4))
  sectionLength := UInt64.ofNat (Word.decode ((bytes.drop 12).take 8))
  checksum := UInt32.ofNat (Word.decode ((bytes.drop 20).take 4))

theorem length_toBytes {t : Trailer} (h : t.magic = Pack.magic) :
    t.toBytes.length = trailerSize := by
  simp only [toBytes, List.length_append, Word.length_encode, h]
  rfl

theorem toBytes_ofFields {bytes : Bytes} (h : bytes.length = trailerSize) :
    (ofFields bytes).toBytes = bytes := by
  have hcount : Word.encode 4 (ofFields bytes).entryCount.toNat = (bytes.drop 8).take 4 := by
    rw [ofFields, UInt32.toNat_ofNat_of_lt' (Word.decode_take_lt 4 _), Word.encode_decode_take]
    rw [List.length_drop, h]
    decide
  have hsection : Word.encode 8 (ofFields bytes).sectionLength.toNat =
      ((bytes.drop 8).drop 4).take 8 := by
    rw [ofFields, UInt64.toNat_ofNat_of_lt' (Word.decode_take_lt 8 _), Word.encode_decode_take,
      List.drop_drop]
    rw [List.length_drop, h]
    decide
  have hchecksum : Word.encode 4 (ofFields bytes).checksum.toNat =
      (((bytes.drop 8).drop 4).drop 8) := by
    rw [ofFields, UInt32.toNat_ofNat_of_lt' (Word.decode_take_lt 4 _), Word.encode_decode_take,
      List.drop_drop, List.drop_drop, List.take_of_length_le]
    · rw [List.length_drop, h]
      decide
    · rw [List.length_drop, h]
      decide
  rw [toBytes, hcount, hsection, hchecksum, List.append_assoc, List.append_assoc]
  rw [List.take_append_drop, List.take_append_drop]
  exact List.take_append_drop 8 bytes

theorem ofFields_toBytes {t : Trailer} (h : t.magic = Pack.magic) : ofFields t.toBytes = t := by
  obtain ⟨magic, entryCount, sectionLength, checksum⟩ := t
  obtain rfl : magic = Pack.magic := h
  have hcount : (toBytes ⟨Pack.magic, entryCount, sectionLength, checksum⟩).drop 8 =
      Word.encode 4 entryCount.toNat ++
        (Word.encode 8 sectionLength.toNat ++ Word.encode 4 checksum.toNat) := by
    simp only [toBytes, List.append_assoc]
    exact List.drop_left' rfl
  have hsection : (toBytes ⟨Pack.magic, entryCount, sectionLength, checksum⟩).drop 12 =
      Word.encode 8 sectionLength.toNat ++ Word.encode 4 checksum.toNat := by
    rw [show 12 = 8 + 4 by rfl, ← List.drop_drop, hcount]
    exact List.drop_left' (Word.length_encode 4 _)
  have hchecksum : (toBytes ⟨Pack.magic, entryCount, sectionLength, checksum⟩).drop 20 =
      Word.encode 4 checksum.toNat ++ [] := by
    rw [show 20 = 12 + 8 by rfl, ← List.drop_drop, hsection, List.append_nil]
    exact List.drop_left' (Word.length_encode 8 _)
  rw [ofFields, hcount, hsection, hchecksum, Word.decode_take_append entryCount.toNat_lt,
    Word.decode_take_append sectionLength.toNat_lt, Word.decode_take_append checksum.toNat_lt,
    UInt32.ofNat_toNat, UInt64.ofNat_toNat, UInt32.ofNat_toNat]
  rfl

theorem ofBytes?_eq_some_iff {bytes : Bytes} (h : bytes.length = trailerSize) {t : Trailer} :
    ofBytes? bytes = some t ↔ t.magic = Pack.magic ∧ bytes = t.toBytes := by
  have hread : ofBytes? bytes =
      if (ofFields bytes).isValid then some (ofFields bytes) else none :=
    if_neg (by omega)
  rw [hread]
  constructor
  · intro hsome
    split at hsome
    · rename_i hvalid
      obtain rfl := Option.some.inj hsome
      exact ⟨of_decide_eq_true hvalid, (toBytes_ofFields h).symm⟩
    · cases hsome
  · rintro ⟨hmagic, rfl⟩
    rw [ofFields_toBytes hmagic]
    exact if_pos (decide_eq_true hmagic)

end Trailer

/-! ## Packs -/

/-- `t` is the trailer behind the section of `entries`. -/
structure Trailer.Closes (t : Trailer) (entries : List (Bytes × Bytes)) : Prop where
  magic : t.magic = Pack.magic
  entryCount : t.entryCount.toNat = entries.length
  sectionLength : t.sectionLength.toNat = (encodeSection entries).length
  checksum : t.checksum = Pack.checksum (encodeSection entries)

/-- `bytes` is the pack of `entries`. -/
def IsPack (entries : List (Bytes × Bytes)) (bytes : Bytes) : Prop :=
  (∀ entry ∈ entries, Fits entry) ∧
    ∃ t : Trailer, t.Closes entries ∧ bytes = encodeSection entries ++ t.toBytes

theorem length_le_length_encodeSection {entries : List (Bytes × Bytes)} {entry : Bytes × Bytes}
    (h : entry ∈ entries) : entry.2.length ≤ (encodeSection entries).length := by
  induction entries with
  | nil => exact absurd h List.not_mem_nil
  | cons first entries ih =>
      rw [encodeSection_cons, List.length_append, length_encodeEntry]
      rcases List.mem_cons.mp h with rfl | h
      · omega
      · have := ih h
        omega

/-- Only one trailer closes a section, and only if it can hold the numbers. -/
theorem Trailer.closes_iff {t : Trailer} {entries : List (Bytes × Bytes)} :
    t.Closes entries ↔ entries.length < UInt32.size ∧
      (encodeSection entries).length < UInt64.size ∧
        t = trailerOf entries.length (encodeSection entries) := by
  constructor
  · rintro ⟨hmagic, hcount, hsection, hchecksum⟩
    refine ⟨hcount ▸ t.entryCount.toNat_lt, hsection ▸ t.sectionLength.toNat_lt, ?_⟩
    obtain ⟨magic, entryCount, sectionLength, checksum⟩ := t
    obtain rfl : magic = Pack.magic := hmagic
    obtain rfl : checksum = Pack.checksum (encodeSection entries) := hchecksum
    rw [trailerOf, ← hcount, ← hsection, UInt32.ofNat_toNat, UInt64.ofNat_toNat]
  · rintro ⟨hcount, hsection, rfl⟩
    exact ⟨rfl, UInt32.toNat_ofNat_of_lt' hcount, UInt64.toNat_ofNat_of_lt' hsection, rfl⟩

theorem length_of_isPack {entries : List (Bytes × Bytes)} {bytes : Bytes}
    (h : IsPack entries bytes) :
    bytes.length = (encodeSection entries).length + trailerSize ∧
      bytes.length < UInt64.size + trailerSize := by
  obtain ⟨-, t, ht, rfl⟩ := h
  have hsection := (Trailer.closes_iff.mp ht).2.1
  rw [List.length_append, Trailer.length_toBytes ht.magic]
  omega

/-- What is found to hold of a pack before its entries are given out. -/
structure Checked (bytes : Bytes) (t : Trailer) (entries : List (Bytes × Bytes)) : Prop where
  long : trailerSize ≤ bytes.length
  trailer : Trailer.ofBytes? (bytes.drop (bytes.length - trailerSize)) = some t
  sectionLength : t.sectionLength.toNat = bytes.length - trailerSize
  checksum : Pack.checksum (bytes.take (bytes.length - trailerSize)) = t.checksum
  found : readEntries 0 (bytes.take (bytes.length - trailerSize)) = .ok entries
  entryCount : entries.length = t.entryCount.toNat

theorem readRaw_eq_ok_iff_checked {bytes : Bytes} {entries : List (Bytes × Bytes)} :
    readRaw bytes = .ok entries ↔ ∃ t, Checked bytes t entries := by
  unfold readRaw
  constructor
  · intro h
    split at h
    · cases h
    · rename_i hlong
      simp only at h
      split at h
      · cases h
      · rename_i t htrailer
        split at h
        · cases h
        · rename_i hsection
          split at h
          · cases h
          · rename_i hchecksum
            split at h
            · cases h
            · rename_i found hfound
              split at h
              · cases h
              · rename_i hcount
                obtain rfl := Except.ok.inj h
                exact ⟨t, Nat.not_lt.mp hlong, htrailer, Decidable.not_not.mp hsection,
                  Decidable.not_not.mp hchecksum, hfound, Decidable.not_not.mp hcount⟩
  · rintro ⟨t, h⟩
    rw [if_neg (Nat.not_lt.mpr h.long)]
    simp only [h.trailer, h.sectionLength, h.checksum, h.found, h.entryCount, ne_eq, not_true,
      if_false]

/-- Reading accepts exactly the packs, and gives their entries. -/
theorem readRaw_eq_ok_iff {bytes : Bytes} {entries : List (Bytes × Bytes)} :
    readRaw bytes = .ok entries ↔ IsPack entries bytes := by
  rw [readRaw_eq_ok_iff_checked]
  constructor
  · rintro ⟨t, h⟩
    have hlength : (bytes.drop (bytes.length - trailerSize)).length = trailerSize := by
      rw [List.length_drop, Nat.sub_sub_self h.long]
    obtain ⟨hmagic, hbytes⟩ := (Trailer.ofBytes?_eq_some_iff hlength).mp h.trailer
    obtain ⟨hfits, hencoded⟩ := readEntries_eq_ok_iff.mp h.found
    refine ⟨hfits, t, ⟨hmagic, h.entryCount.symm, ?_, ?_⟩, ?_⟩
    · rw [h.sectionLength, ← hencoded, List.length_take, Nat.min_eq_left (Nat.sub_le _ _)]
    · rw [← hencoded, h.checksum]
    · rw [← hencoded, ← hbytes, List.take_append_drop]
  · rintro ⟨hfits, t, ht, rfl⟩
    have htrailer := Trailer.length_toBytes ht.magic
    have hlong : trailerSize ≤ (encodeSection entries ++ t.toBytes).length := by
      rw [List.length_append, htrailer]
      exact Nat.le_add_left _ _
    have hsection : (encodeSection entries ++ t.toBytes).length - trailerSize =
        (encodeSection entries).length := by
      rw [List.length_append, htrailer, Nat.add_sub_cancel]
    refine ⟨t, hlong, ?_, ?_, ?_, ?_, ht.entryCount.symm⟩ <;> rw [hsection]
    · rw [List.drop_left]
      exact (Trailer.ofBytes?_eq_some_iff htrailer).mpr ⟨ht.magic, rfl⟩
    · exact ht.sectionLength
    · rw [List.take_left]
      exact ht.checksum.symm
    · rw [List.take_left]
      exact readEntries_eq_ok_iff.mpr ⟨hfits, rfl⟩

theorem isPack_unique {bytes : Bytes} {entries entries' : List (Bytes × Bytes)}
    (h : IsPack entries bytes) (h' : IsPack entries' bytes) : entries = entries' := by
  have heq := (readRaw_eq_ok_iff.mpr h).symm.trans (readRaw_eq_ok_iff.mpr h')
  exact Except.ok.inj heq

theorem readRaw_eq_error {bytes : Bytes} {error : AssetError} (h : readRaw bytes = .error error) :
    (∃ flaw, error = .invalidPack flaw) ∨
      ∃ expected actual, error = .checksumMismatch expected actual := by
  unfold readRaw at h
  split at h
  · exact .inl ⟨_, (Except.error.inj h).symm⟩
  · simp only at h
    split at h
    · exact .inl ⟨_, (Except.error.inj h).symm⟩
    · split at h
      · exact .inl ⟨_, (Except.error.inj h).symm⟩
      · split at h
        · exact .inr ⟨_, _, (Except.error.inj h).symm⟩
        · split at h
          · exact .inl ⟨_, (Except.error.inj h).symm⟩
          · split at h
            · exact .inl ⟨_, (Except.error.inj h).symm⟩
            · cases h

/-! ## Named files -/

/-- An entry under its path as a text, the parts of it that are not UTF-8
replaced. -/
def nameEntry (entry : Bytes × Bytes) : String × Bytes := (Utf8.decode entry.1, entry.2)

/-- A file under its path as bytes. -/
def encodeName (file : String × Bytes) : Bytes × Bytes := (Utf8.encode file.1, file.2)

theorem map_nameEntry_map_encodeName (files : List (String × Bytes)) :
    (files.map encodeName).map nameEntry = files := by
  rw [List.map_map]
  refine List.map_id'' (fun file => ?_) files
  rw [Function.comp_apply, nameEntry, encodeName, Utf8.decode_encode]

theorem map_encodeName_map_nameEntry {entries : List (Bytes × Bytes)}
    (h : ∀ entry ∈ entries, ∃ path : String, entry.1 = Utf8.encode path) :
    (entries.map nameEntry).map encodeName = entries := by
  have hback : ∀ entry ∈ entries, encodeName (nameEntry entry) = entry := by
    intro entry hmem
    obtain ⟨path, hpath⟩ := h entry hmem
    obtain ⟨bytes, data⟩ := entry
    obtain rfl : bytes = Utf8.encode path := hpath
    rw [nameEntry, encodeName, Utf8.decode_encode]
  rw [List.map_map]
  exact (List.map_congr_left hback).trans (List.map_id entries)

theorem read_eq_ok_iff {bytes : Bytes} {files : List (String × Bytes)} :
    read bytes = .ok files ↔
      ∃ entries, IsPack entries bytes ∧ files = entries.map nameEntry := by
  unfold read
  constructor
  · intro h
    cases hraw : readRaw bytes with
    | error error =>
        rw [hraw] at h
        cases h
    | ok entries =>
        rw [hraw] at h
        exact ⟨entries, readRaw_eq_ok_iff.mp hraw, (Except.ok.inj h).symm⟩
  · rintro ⟨entries, hpack, rfl⟩
    rw [readRaw_eq_ok_iff.mpr hpack]
    rfl

theorem read_eq_error {bytes : Bytes} {error : AssetError} (h : read bytes = .error error) :
    (∃ flaw, error = .invalidPack flaw) ∨
      ∃ expected actual, error = .checksumMismatch expected actual := by
  unfold read at h
  cases hraw : readRaw bytes with
  | ok entries =>
      rw [hraw] at h
      cases h
  | error found =>
      rw [hraw] at h
      obtain rfl := Except.error.inj h
      exact readRaw_eq_error hraw

/-- Files are built into a pack if their paths and their number can be written
down, and what they are built into is their section and the trailer for it. -/
theorem build_eq_ok_iff {files : List (String × Bytes)} {parts : Bytes × Bytes} :
    build files = .ok parts ↔
      (∀ file ∈ files, file.1.utf8ByteSize < UInt32.size) ∧ files.length < UInt32.size ∧
        parts = (encodeSection (files.map encodeName),
          (trailerOf files.length (encodeSection (files.map encodeName))).toBytes) := by
  unfold build
  constructor
  · intro h
    split at h
    · cases h
    · rename_i hpaths
      split at h
      · cases h
      · rename_i hcount
        refine ⟨fun file hmem => ?_, Nat.lt_of_not_le hcount, (Except.ok.inj h).symm⟩
        exact Nat.lt_of_not_le fun hlong =>
          hpaths (List.any_eq_true.mpr ⟨file, hmem, decide_eq_true hlong⟩)
  · rintro ⟨hpaths, hcount, rfl⟩
    have hnone : ¬(files.any fun file => file.1.utf8ByteSize ≥ UInt32.size) = true := by
      intro hany
      obtain ⟨file, hmem, hlong⟩ := List.any_eq_true.mp hany
      exact Nat.not_le_of_lt (hpaths file hmem) (of_decide_eq_true hlong)
    rw [if_neg hnone, if_neg (Nat.not_le_of_lt hcount)]
    rfl

theorem toBytes_of_build {files : List (String × Bytes)} {entries trailer : Bytes}
    (h : build files = .ok (entries, trailer)) : toBytes files = .ok (entries ++ trailer) := by
  unfold toBytes
  rw [h]
  rfl

theorem build_of_toBytes {files : List (String × Bytes)} {bytes : Bytes}
    (h : toBytes files = .ok bytes) :
    ∃ entries trailer, build files = .ok (entries, trailer) ∧ bytes = entries ++ trailer := by
  unfold toBytes at h
  cases hbuild : build files with
  | error fault =>
      rw [hbuild] at h
      cases h
  | ok parts =>
      rw [hbuild] at h
      exact ⟨parts.1, parts.2, rfl, (Except.ok.inj h).symm⟩

theorem isPack_of_toBytes {files : List (String × Bytes)} {bytes : Bytes}
    (h : toBytes files = .ok bytes) (hlength : bytes.length < UInt64.size + trailerSize) :
    IsPack (files.map encodeName) bytes := by
  obtain ⟨entries, trailer, hbuild, rfl⟩ := build_of_toBytes h
  obtain ⟨hpaths, hcount, hparts⟩ := build_eq_ok_iff.mp hbuild
  obtain ⟨rfl, rfl⟩ := Prod.mk.inj hparts
  rw [List.length_append, Trailer.length_toBytes rfl] at hlength
  refine ⟨?_, trailerOf files.length (encodeSection (files.map encodeName)), ?_, rfl⟩
  · intro entry hmem
    have hdata := length_le_length_encodeSection hmem
    obtain ⟨file, hfile, rfl⟩ := List.mem_map.mp hmem
    refine ⟨?_, by omega⟩
    rw [encodeName, Utf8.length_encode]
    exact hpaths file hfile
  · refine Trailer.closes_iff.mpr ⟨?_, by omega, ?_⟩
    · rwa [List.length_map]
    · rw [List.length_map]

theorem toBytes_of_isPack {entries : List (Bytes × Bytes)} {bytes : Bytes}
    (h : IsPack entries bytes)
    (hpaths : ∀ entry ∈ entries, ∃ path : String, entry.1 = Utf8.encode path) :
    toBytes (entries.map nameEntry) = .ok bytes := by
  obtain ⟨hfits, t, ht, rfl⟩ := h
  obtain ⟨hcount, hsection, rfl⟩ := Trailer.closes_iff.mp ht
  refine toBytes_of_build (build_eq_ok_iff.mpr ⟨?_, ?_, ?_⟩)
  · intro file hmem
    obtain ⟨entry, hentry, rfl⟩ := List.mem_map.mp hmem
    obtain ⟨path, hpath⟩ := hpaths entry hentry
    have hlength := (hfits entry hentry).1
    rwa [nameEntry, hpath, Utf8.decode_encode, ← Utf8.length_encode, ← hpath]
  · rwa [List.length_map]
  · rw [map_encodeName_map_nameEntry hpaths, List.length_map]

/-! ## Packs written to an output -/

/-- An output takes the pack of files like one string, and if it takes it all
the number given is its length. -/
theorem writeTo_takes {files : List (String × Bytes)} {bytes : Bytes}
    (h : toBytes files = .ok bytes) (o : Output) :
    o.Takes bytes ((writeTo o files).1.map fun _ => (), (writeTo o files).2) ∧
      ∀ size, (writeTo o files).1 = .ok size → size = bytes.length := by
  obtain ⟨entries, trailer, hbuild, rfl⟩ := build_of_toBytes h
  have htrailer : trailer.length = trailerSize := by
    obtain ⟨-, -, hparts⟩ := build_eq_ok_iff.mp hbuild
    obtain ⟨-, rfl⟩ := Prod.mk.inj hparts
    exact Trailer.length_toBytes rfl
  have hentries := o.writeAll_takes entries
  unfold writeTo
  rw [hbuild]
  simp only
  split
  · rename_i fault o₁ hwrite
    rw [hwrite] at hentries
    exact ⟨hentries.append_of_error trailer, nofun⟩
  · rename_i o₁ hwrite
    rw [hwrite] at hentries
    have hall := hentries.append (o₁.writeAll_takes trailer)
    split
    · rename_i fault o₂ hwrite₂
      rw [hwrite₂] at hall
      exact ⟨hall, nofun⟩
    · rename_i o₂ hwrite₂
      rw [hwrite₂] at hall
      refine ⟨hall, fun size hsize => ?_⟩
      rw [List.length_append, htrailer]
      exact (Except.ok.inj hsize).symm

theorem toBytes_of_writeTo {o o' : Output} {files : List (String × Bytes)} {size : Nat}
    (h : writeTo o files = (.ok size, o')) :
    ∃ bytes, toBytes files = .ok bytes ∧ size = bytes.length ∧ o.Extended bytes o' := by
  cases hbuild : build files with
  | error fault =>
      unfold writeTo at h
      rw [hbuild] at h
      cases h
  | ok parts =>
      have hpack := toBytes_of_build hbuild
      obtain ⟨htakes, hsize⟩ := writeTo_takes hpack o
      rw [h] at htakes hsize
      exact ⟨_, hpack, hsize size rfl, htakes.extended_of_ok⟩

theorem writeTo_of_room_eq_none {files : List (String × Bytes)} {bytes : Bytes}
    (h : toBytes files = .ok bytes) {o : Output} (hroom : o.room = none) :
    ∃ o', writeTo o files = (.ok bytes.length, o') ∧ o.Extended bytes o' := by
  obtain ⟨htakes, hsize⟩ := writeTo_takes h o
  have houtcome := htakes.outcome
  rw [if_pos (Output.accepts_of_room_eq_none hroom bytes.length)] at houtcome
  rcases hwritten : writeTo o files with ⟨outcome, o'⟩
  rw [hwritten] at htakes hsize houtcome
  cases outcome with
  | error fault => cases houtcome
  | ok size =>
      obtain rfl := hsize size rfl
      exact ⟨o', rfl, htakes.extended_of_ok⟩

end SealedModules.Pack
