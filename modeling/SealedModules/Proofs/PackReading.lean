/-
# Reading a pack in place

`Pack.read` takes a pack apart from the front, where nothing can be out of
reach.  A reader that stays in one buffer and keeps offsets into it has to
stay inside: `read?` below is that reader, and it has no result if a slice
leaves the buffer or a sum leaves the machine word.  Only the end of an entry is
added up with a check, since nothing bounds the lengths that an entry declares.

It always has a result, the one that `read` gives (`read?_eq`).  All that this
takes is that the length of the buffer is a machine word: an entry header that
starts in the section ends before the trailer does, so no offset that is
formed is larger.
-/
import SealedModules.Bytes.Slice
import SealedModules.Proofs.Packing

namespace SealedModules.Pack

open Bytes (add? sub? slice? word? add?_of_lt sub?_of_le eq_of_add? slice?_of_le slice?_length
  le_of_slice? word?_of_le)

/-! ## Entries -/

/-- Where an entry ends whose path starts at an offset, if that is inside. -/
def entryStop? (bytes : Bytes) (start pathLength dataLength : Nat) : Option Nat :=
  ((add? start pathLength).bind (add? · dataLength)).filter (· ≤ bytes.length)

/-- The entry whose path starts at an offset, under its path as a text, and the
offset behind it. -/
def entryBody? (bytes : Bytes) (start pathLength dataLength : Nat) :
    Option (Except PackFlaw ((String × Bytes) × Nat)) :=
  match entryStop? bytes start pathLength dataLength with
  | none => return .error (.overrun start)
  | some stop => do
    let middle ← add? start pathLength
    let path ← slice? bytes start middle
    let data ← slice? bytes middle stop
    return .ok ((Utf8.decode path, data), stop)

/-- The entry whose header stands at an offset, and the offset behind it. -/
def entryAt? (bytes : Bytes) (offset : Nat) :
    Option (Except PackFlaw ((String × Bytes) × Nat)) := do
  let headerStop ← add? offset entryHeaderSize
  if bytes.length < headerStop then
    return .error (.truncatedHeader offset)
  let pathLength ← word? 4 bytes offset
  let later ← add? offset 4
  let dataLength ← word? 8 bytes later
  let start ← add? offset entryHeaderSize
  entryBody? bytes start pathLength dataLength

/-- The checks on the end of an entry are one: whatever does not fit into a
machine word does not fit into the buffer. -/
theorem entryStop?_eq {bytes : Bytes} (hlength : bytes.length < UInt64.size)
    (start pathLength dataLength : Nat) :
    entryStop? bytes start pathLength dataLength =
      if start + pathLength + dataLength ≤ bytes.length then
        some (start + pathLength + dataLength)
      else none := by
  unfold entryStop?
  by_cases hinside : start + pathLength + dataLength ≤ bytes.length
  · rw [if_pos hinside, add?_of_lt (by omega), Option.bind_some, add?_of_lt (by omega),
      Option.filter_some, if_pos (decide_eq_true hinside)]
  · rw [if_neg hinside, Option.filter_eq_none_iff]
    intro stop hstop
    obtain ⟨middle, hmiddle, hsum⟩ := Option.bind_eq_some_iff.mp hstop
    obtain rfl := eq_of_add? hmiddle
    obtain rfl := eq_of_add? hsum
    simpa only [decide_eq_true_eq] using hinside

theorem entryBody?_eq {bytes : Bytes} (hlength : bytes.length < UInt64.size)
    (start pathLength dataLength : Nat) :
    entryBody? bytes start pathLength dataLength = some (
      if start + pathLength + dataLength ≤ bytes.length then
        .ok (nameEntry ((bytes.drop start).take pathLength,
            ((bytes.drop start).drop pathLength).take dataLength),
          start + pathLength + dataLength)
      else .error (.overrun start)) := by
  unfold entryBody?
  rw [entryStop?_eq hlength]
  by_cases hinside : start + pathLength + dataLength ≤ bytes.length
  · have hmiddle : start ≤ start + pathLength := Nat.le_add_right _ _
    have hstop : start + pathLength ≤ start + pathLength + dataLength := Nat.le_add_right _ _
    have hpath := slice?_of_le bytes hmiddle (hstop.trans hinside)
    have hdata := slice?_of_le bytes hstop hinside
    rw [Nat.add_sub_cancel_left] at hpath hdata
    rw [← List.drop_drop] at hdata
    rw [if_pos hinside, if_pos hinside]
    simp only [add?_of_lt (show start + pathLength < UInt64.size by omega), hpath, hdata,
      Option.bind_eq_bind, Option.bind_some]
    rfl
  · rw [if_neg hinside, if_neg hinside]
    rfl

theorem entryAt?_of_truncated {bytes : Bytes} {offset : Nat}
    (hword : offset + entryHeaderSize < UInt64.size)
    (h : bytes.length < offset + entryHeaderSize) :
    entryAt? bytes offset = some (.error (.truncatedHeader offset)) := by
  unfold entryAt?
  rw [add?_of_lt hword]
  exact if_pos h

theorem entryAt?_of_le {bytes rest : Bytes} {offset : Nat} (hlength : bytes.length < UInt64.size)
    (hrest : bytes.drop offset = rest) (h : entryHeaderSize ≤ rest.length) :
    let pathLength := Word.decode (rest.take 4)
    let dataLength := Word.decode ((rest.drop 4).take 8)
    let body := rest.drop entryHeaderSize
    let size := pathLength + dataLength
    entryAt? bytes offset = some (
      if body.length < size then .error (.overrun (offset + entryHeaderSize))
      else .ok (nameEntry (body.take pathLength, (body.drop pathLength).take dataLength),
        offset + entryHeaderSize + size)) := by
  intro pathLength dataLength body size
  have hbody : body = bytes.drop (offset + entryHeaderSize) := by
    rw [← List.drop_drop, hrest]
  have hbodyLength : body.length = bytes.length - (offset + entryHeaderSize) := by
    rw [hbody, List.length_drop]
  have hinside : offset + entryHeaderSize ≤ bytes.length := by
    rw [← hrest, List.length_drop] at h
    unfold entryHeaderSize at *
    omega
  have hfields : entryAt? bytes offset =
      entryBody? bytes (offset + entryHeaderSize) pathLength dataLength := by
    have hstart := add?_of_lt (Nat.lt_of_le_of_lt hinside hlength)
    have hhere := Nat.not_lt.mpr hinside
    unfold entryHeaderSize at hinside
    have hpath := word?_of_le (show offset + 4 ≤ bytes.length by omega)
    have hlater := add?_of_lt (show offset + 4 < UInt64.size by omega)
    have hdata := word?_of_le (show offset + 4 + 8 ≤ bytes.length by omega)
    rw [← List.drop_drop, hrest] at hdata
    rw [hrest] at hpath
    unfold entryAt?
    simp only [hstart, hpath, hlater, hdata, if_neg hhere, Option.bind_eq_bind, Option.bind_some]
    rfl
  rw [hfields, entryBody?_eq hlength, ← hbody]
  by_cases hlong : body.length < size
  · rw [if_pos hlong, if_neg (by omega)]
  · rw [if_neg hlong, if_pos (by omega), Nat.add_assoc]

theorem entryBody?_progress {bytes : Bytes} {start pathLength dataLength stop : Nat}
    {entry : String × Bytes}
    (h : entryBody? bytes start pathLength dataLength = some (.ok (entry, stop))) :
    start ≤ stop ∧ stop ≤ bytes.length := by
  unfold entryBody? at h
  split at h
  · cases h
  · rename_i found hfound
    obtain ⟨middle, hmiddle, h⟩ := Option.bind_eq_some_iff.mp h
    obtain ⟨path, -, h⟩ := Option.bind_eq_some_iff.mp h
    obtain ⟨data, hdata, h⟩ := Option.bind_eq_some_iff.mp h
    obtain ⟨-, rfl⟩ := Prod.mk.inj (Except.ok.inj (Option.some.inj h))
    have := eq_of_add? hmiddle
    have := le_of_slice? hdata
    omega

theorem entryAt?_progress {bytes : Bytes} {offset stop : Nat} {entry : String × Bytes}
    (h : entryAt? bytes offset = some (.ok (entry, stop))) :
    offset < stop ∧ stop ≤ bytes.length := by
  unfold entryAt? at h
  obtain ⟨headerStop, -, h⟩ := Option.bind_eq_some_iff.mp h
  split at h
  · cases h
  · obtain ⟨pathLength, -, h⟩ := Option.bind_eq_some_iff.mp h
    obtain ⟨later, -, h⟩ := Option.bind_eq_some_iff.mp h
    obtain ⟨dataLength, -, h⟩ := Option.bind_eq_some_iff.mp h
    obtain ⟨start, hstart, h⟩ := Option.bind_eq_some_iff.mp h
    have := eq_of_add? hstart
    have := entryBody?_progress h
    unfold entryHeaderSize at *
    omega

/-! ## Sections -/

/-- The entries of a section from an offset on. -/
def entriesFrom? (bytes : Bytes) (offset : Nat) :
    Option (Except PackFlaw (List (String × Bytes))) :=
  if offset < bytes.length then
    match hentry : entryAt? bytes offset with
    | none => none
    | some (.error flaw) => some (.error flaw)
    | some (.ok (entry, stop)) =>
      have : bytes.length - stop < bytes.length - offset := by
        have := entryAt?_progress hentry
        omega
      (entriesFrom? bytes stop).map fun later => later.map (entry :: ·)
  else some (.ok [])
termination_by bytes.length - offset

theorem entriesFrom?_of_le {bytes : Bytes} {offset : Nat} (h : bytes.length ≤ offset) :
    entriesFrom? bytes offset = some (.ok []) := by
  rw [entriesFrom?, if_neg (by omega)]

theorem entriesFrom?_of_error {bytes : Bytes} {offset : Nat} {flaw : PackFlaw}
    (h : offset < bytes.length) (hentry : entryAt? bytes offset = some (.error flaw)) :
    entriesFrom? bytes offset = some (.error flaw) := by
  rw [entriesFrom?, if_pos h]
  split
  · rename_i hnone
    rw [hentry] at hnone
    cases hnone
  · rename_i found hfound
    rw [hentry] at hfound
    obtain rfl := Except.error.inj (Option.some.inj hfound)
    rfl
  · rename_i hok
    rw [hentry] at hok
    cases hok

theorem entriesFrom?_of_ok {bytes : Bytes} {offset stop : Nat} {entry : String × Bytes}
    (h : offset < bytes.length) (hentry : entryAt? bytes offset = some (.ok (entry, stop))) :
    entriesFrom? bytes offset =
      (entriesFrom? bytes stop).map fun later => later.map (entry :: ·) := by
  rw [entriesFrom?, if_pos h]
  split
  · rename_i hnone
    rw [hentry] at hnone
    cases hnone
  · rename_i hflaw
    rw [hentry] at hflaw
    cases hflaw
  · rename_i found hfound
    rw [hentry] at hfound
    obtain ⟨rfl, rfl⟩ := Prod.mk.inj (Except.ok.inj (Option.some.inj hfound))
    rfl

theorem lt_length_of_drop {bytes rest : Bytes} {offset : Nat} (h : bytes.drop offset = rest)
    (hne : rest ≠ []) : offset < bytes.length := by
  by_contra hge
  rw [List.drop_eq_nil_of_le (Nat.not_lt.mp hge)] at h
  exact hne h.symm

theorem drop_entry {bytes rest : Bytes} {offset size : Nat} (hrest : bytes.drop offset = rest)
    (hheader : ¬ rest.length < entryHeaderSize)
    (hbody : ¬ (rest.drop entryHeaderSize).length < size) :
    offset + entryHeaderSize + size ≤ bytes.length ∧
      bytes.drop (offset + entryHeaderSize + size) = (rest.drop entryHeaderSize).drop size := by
  constructor
  · rw [List.length_drop, ← hrest, List.length_drop] at hbody
    rw [← hrest, List.length_drop] at hheader
    unfold entryHeaderSize at *
    omega
  · rw [← hrest, List.drop_drop, List.drop_drop, Nat.add_assoc]

/-- Reading a section in place gives what reading it from the front gives. -/
theorem entriesFrom?_eq {bytes : Bytes} (hlength : bytes.length + entryHeaderSize < UInt64.size)
    {offset : Nat} (hoffset : offset ≤ bytes.length) :
    entriesFrom? bytes offset =
      some ((readEntries offset (bytes.drop offset)).map (·.map nameEntry)) := by
  generalize hbytes : bytes.drop offset = rest
  fun_induction readEntries offset rest with
  | case1 offset =>
      exact entriesFrom?_of_le (List.drop_eq_nil_iff.mp hbytes)
  | case2 offset rest hne hshort =>
      have hlt := lt_length_of_drop hbytes hne
      rw [← hbytes, List.length_drop] at hshort
      exact entriesFrom?_of_error hlt (entryAt?_of_truncated (by omega) (by omega))
  | case3 offset rest hne hheader pathLength dataLength body size hbody =>
      have hentry := entryAt?_of_le (by omega) hbytes (Nat.not_lt.mp hheader)
      rw [entriesFrom?_of_error (lt_length_of_drop hbytes hne)
        (hentry.trans (congrArg some (if_pos hbody)))]
      rfl
  | case4 offset rest hne hheader pathLength dataLength body size hbody flaw hlater ih =>
      have hentry := entryAt?_of_le (by omega) hbytes (Nat.not_lt.mp hheader)
      obtain ⟨hstop, hnext⟩ := drop_entry hbytes hheader hbody
      rw [entriesFrom?_of_ok (lt_length_of_drop hbytes hne)
        (hentry.trans (congrArg some (if_neg hbody))), ih hstop hnext, hlater]
      rfl
  | case5 offset rest hne hheader pathLength dataLength body size hbody later hlater =>
      rename_i ih
      have hentry := entryAt?_of_le (by omega) hbytes (Nat.not_lt.mp hheader)
      obtain ⟨hstop, hnext⟩ := drop_entry hbytes hheader hbody
      rw [entriesFrom?_of_ok (lt_length_of_drop hbytes hne)
        (hentry.trans (congrArg some (if_neg hbody))), ih hstop hnext, hlater]
      rfl

/-! ## Packs -/

/-- The valid trailer at the start of a byte string. -/
def trailerAt? (bytes : Bytes) : Option (Option Trailer) :=
  if bytes.length < trailerSize then some none
  else do
    let magic ← slice? bytes 0 8
    let entryCount ← slice? bytes 8 12
    let sectionLength ← slice? bytes 12 20
    let checksum ← slice? bytes 20 24
    let trailer : Trailer := {
      magic := magic
      entryCount := UInt32.ofNat (Word.decode entryCount)
      sectionLength := UInt64.ofNat (Word.decode sectionLength)
      checksum := UInt32.ofNat (Word.decode checksum) }
    return if trailer.isValid then some trailer else none

theorem trailerAt?_eq (bytes : Bytes) : trailerAt? bytes = some (Trailer.ofBytes? bytes) := by
  unfold trailerAt? Trailer.ofBytes?
  by_cases hshort : bytes.length < trailerSize
  · rw [if_pos hshort, if_pos hshort]
  · rw [if_neg hshort, if_neg hshort]
    unfold trailerSize at hshort
    have hmagic := slice?_of_le bytes (Nat.zero_le 8) (by omega)
    have hcount := slice?_of_le bytes (show 8 ≤ 12 by omega) (by omega)
    have hsection := slice?_of_le bytes (show 12 ≤ 20 by omega) (by omega)
    have hchecksum := slice?_of_le bytes (show 20 ≤ 24 by omega) (by omega)
    rw [hmagic, hcount, hsection, hchecksum]
    rfl

/-- The entries of a pack, read in place. -/
def read? (bytes : Bytes) : Option (Except AssetError (List (String × Bytes))) :=
  if bytes.length < trailerSize then some (.error (.invalidPack .tooShort))
  else do
    let sectionLength ← sub? bytes.length trailerSize
    let last ← slice? bytes sectionLength bytes.length
    match ← trailerAt? last with
    | none => some (.error (.invalidPack .badMagic))
    | some trailer =>
      if trailer.sectionLength.toNat ≠ sectionLength then
        some (.error (.invalidPack (.sectionLength sectionLength trailer.sectionLength.toNat)))
      else
        let entries ← slice? bytes 0 sectionLength
        let actual := checksum entries
        if actual ≠ trailer.checksum then
          some (.error (.checksumMismatch trailer.checksum.toNat actual.toNat))
        else
          match ← entriesFrom? entries 0 with
          | .error flaw => some (.error (.invalidPack flaw))
          | .ok found =>
            if found.length ≠ trailer.entryCount.toNat then
              some (.error (.invalidPack (.entryCount found.length trailer.entryCount.toNat)))
            else some (.ok found)

/-- Reading a pack in place never fails to give a result, and it is the one that
reading from the front gives. -/
theorem read?_eq {bytes : Bytes} (h : bytes.length < UInt64.size) :
    read? bytes = some (read bytes) := by
  unfold read? read readRaw
  by_cases hshort : bytes.length < trailerSize
  · rw [if_pos hshort, if_pos hshort]
    rfl
  · have hle := Nat.not_lt.mp hshort
    have hlast := slice?_length (Nat.sub_le bytes.length trailerSize)
    have hentries := slice?_of_le bytes (Nat.zero_le _) (Nat.sub_le bytes.length trailerSize)
    rw [if_neg hshort, if_neg hshort]
    simp only [sub?_of_le hle, hlast, trailerAt?_eq, hentries, Option.bind_eq_bind,
      Option.bind_some, List.drop_zero, Nat.sub_zero]
    cases htrailer : Trailer.ofBytes? (bytes.drop (bytes.length - trailerSize)) with
    | none => rfl
    | some trailer =>
        simp only
        split
        · rfl
        · split
          · rfl
          · have hsection : (bytes.take (bytes.length - trailerSize)).length + entryHeaderSize <
                UInt64.size := by
              rw [List.length_take]
              unfold trailerSize entryHeaderSize at *
              omega
            rw [entriesFrom?_eq hsection (Nat.zero_le _), List.drop_zero]
            cases readEntries 0 (bytes.take (bytes.length - trailerSize)) with
            | error flaw => rfl
            | ok found =>
                simp only [Except.map, Option.bind_some, List.length_map]
                split
                · rfl
                · rfl

/-! ## Packs, written and read -/

theorem read_of_toBytes {files : List (String × Bytes)} {bytes : Bytes}
    (h : toBytes files = .ok bytes) (hlength : bytes.length < UInt64.size) :
    read bytes = .ok files := by
  refine read_eq_ok_iff.mpr ⟨_, isPack_of_toBytes h (by omega), ?_⟩
  exact (map_nameEntry_map_encodeName files).symm

theorem read_of_writeTo {files : List (String × Bytes)} {o o' : Output} {size : Nat}
    (h : writeTo o files = (.ok size, o')) (hempty : o.contents = [])
    (hlength : o'.contents.length < UInt64.size) :
    size = o'.contents.length ∧ read o'.contents = .ok files := by
  obtain ⟨bytes, hbytes, rfl, hext⟩ := toBytes_of_writeTo h
  rw [hext.contents_of_contents_eq_nil hempty] at hlength ⊢
  exact ⟨rfl, read_of_toBytes hbytes hlength⟩

theorem writeTo_of_isPack {entries : List (Bytes × Bytes)} {bytes : Bytes}
    (h : IsPack entries bytes)
    (hpaths : ∀ entry ∈ entries, ∃ path : String, entry.1 = Utf8.encode path)
    {o : Output} (hempty : o.contents = []) (hroom : o.room = none) :
    ∃ o', writeTo o (entries.map nameEntry) = (.ok bytes.length, o') ∧ o'.contents = bytes := by
  obtain ⟨o', hwrite, hext⟩ := writeTo_of_room_eq_none (toBytes_of_isPack h hpaths) hroom
  exact ⟨o', hwrite, hext.contents_of_contents_eq_nil hempty⟩

/-- A byte string is read if it is the pack of some entries, of which there is
only one list, and then gives these under their paths as texts; whatever else
it is, it is refused for its layout or its checksum.  Reading in place gives the
same, whatever the lengths in it say.  Written files are read back, and what
was read is written as it was, unless that changed a path.  The length of a
buffer is a machine word, and nothing else is asked of one. -/
theorem packs_are_what_is_read :
    (∀ bytes files, read bytes = .ok files ↔
      ∃ entries, IsPack entries bytes ∧ files = entries.map nameEntry) ∧
    (∀ bytes entries entries', IsPack entries bytes → IsPack entries' bytes →
      entries = entries') ∧
    (∀ bytes error, read bytes = .error error →
      (∃ flaw, error = .invalidPack flaw) ∨
        ∃ expected actual, error = .checksumMismatch expected actual) ∧
    (∀ bytes : Bytes, bytes.length < UInt64.size → read? bytes = some (read bytes)) ∧
    (∀ (files : List (String × Bytes)) (o o' : Output) (size : Nat), o.contents = [] →
      writeTo o files = (.ok size, o') → o'.contents.length < UInt64.size →
        size = o'.contents.length ∧ read o'.contents = .ok files) ∧
    (∀ (bytes : Bytes) (entries : List (Bytes × Bytes)) (o : Output), IsPack entries bytes →
      (∀ entry ∈ entries, ∃ path : String, entry.1 = Utf8.encode path) →
        o.contents = [] → o.room = none →
          ∃ o', writeTo o (entries.map nameEntry) = (.ok bytes.length, o') ∧
            o'.contents = bytes) := by
  refine ⟨?_, ?_, ?_, ?_, ?_, ?_⟩
  · intro bytes files
    exact read_eq_ok_iff
  · intro bytes entries entries' h h'
    exact isPack_unique h h'
  · intro bytes error h
    exact read_eq_error h
  · intro bytes h
    exact read?_eq h
  · intro files o o' size hempty h hlength
    exact read_of_writeTo h hempty hlength
  · intro bytes entries o h hpaths hempty hroom
    exact writeTo_of_isPack h hpaths hempty hroom

/-- A path that occurs twice, and a file with nothing in it. -/
theorem repeated_path_is_read_back :
    ∃ o, writeTo {} [("a", []), ("a", [7])] = (.ok 51, o) ∧
      read? o.contents = some (.ok [("a", []), ("a", [7])]) := by
  let files : List (String × Bytes) := [("a", []), ("a", [7])]
  let pack : Bytes := [1, 0, 0, 0, 0, 0, 0, 0, 0, 0, 0, 0, 97,
    1, 0, 0, 0, 1, 0, 0, 0, 0, 0, 0, 0, 97, 7,
    77, 83, 80, 65, 67, 75, 0, 0, 2, 0, 0, 0, 27, 0, 0, 0, 0, 0, 0, 0, 244, 146, 124, 31]
  have hpack : toBytes files = .ok pack := by decide +kernel
  have hpaths : ∀ entry ∈ files.map encodeName, ∃ path : String, entry.1 = Utf8.encode path := by
    intro entry hmem
    obtain ⟨file, -, rfl⟩ := List.mem_map.mp hmem
    exact ⟨file.1, rfl⟩
  obtain ⟨-, -, -, hinPlace, hwritten, hread⟩ := packs_are_what_is_read
  obtain ⟨o, hwrite, hcontents⟩ :=
    hread pack _ {} (isPack_of_toBytes hpack (by decide)) hpaths rfl rfl
  rw [map_nameEntry_map_encodeName] at hwrite
  have hsmall : o.contents.length < UInt64.size := by
    rw [hcontents]
    decide
  refine ⟨o, hwrite, ?_⟩
  rw [hinPlace _ hsmall, (hwritten files _ _ _ rfl hwrite hsmall).2]

end SealedModules.Pack
