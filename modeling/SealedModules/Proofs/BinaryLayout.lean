/-
# The layout of the binary form

What the interpreter takes for a compiled module is told by the bytes alone: a
tag and a version, a byte that says whether there is a value, the value, and
three fields, each behind four bytes that say how long it is
(`Fields.LaidOut`).  Where a field ends is told before it begins, so bytes that
are laid out are so in one way, and neither with something behind them nor
with something missing (`laidOut_append`).

A module that was read is written as it was read if its texts were UTF-8.  If
not, its dump holds U+FFFD for what was invalid and may be longer, by up to
three bytes for one.  It is read back all the same, as long as the lengths of
its fields can be written (`ofBytes?_toBytes_iff`); a length of 4 GiB cannot,
and then the dump is not read back.

`ofBytesAt?` reads in place, with every offset checked, and never leaves the
bytes, whatever lengths they declare.
-/
import SealedModules.Bytes.Slice
import SealedModules.Proofs.BinaryForm
import SealedModules.Proofs.Loading

namespace SealedModules

namespace CompiledModule

/-! ## Layouts -/

/-- Bytes that are a field: four that say its length, lowest first, and it. -/
def FieldLaidOut (data bytes : Bytes) : Prop :=
  ∃ length : Bytes, length.length = 4 ∧ Word.decode length = data.length ∧ bytes = length ++ data

/-- Bytes that are an optional value: one that says whether it is there, and
eight of two's complement, lowest first. -/
inductive ValueLaidOut : Option Int64 → Bytes → Prop where
  | absent : ValueLaidOut none [0]
  | present {v : Int64} {eight : Bytes} (hlength : eight.length = 8)
      (hv : Word.decode eight = v.toUInt64.toNat) : ValueLaidOut (some v) (1 :: eight)

/-- What a binary form holds. -/
structure Fields where
  value : Option Int64
  failure : Bytes
  chunk : Bytes
  text : Bytes

/-- Bytes that are a binary form. -/
inductive Fields.LaidOut (fields : Fields) : Bytes → Prop where
  | mk {value failure chunk text : Bytes} (hvalue : ValueLaidOut fields.value value)
      (hfailure : FieldLaidOut fields.failure failure) (hchunk : FieldLaidOut fields.chunk chunk)
      (htext : FieldLaidOut fields.text text) :
      fields.LaidOut ([0x1B, 0x54, 0x4E, 0x59, 1] ++ (value ++ (failure ++ (chunk ++ text))))

/-- The module that a binary form stands for. -/
def Fields.module (fields : Fields) : CompiledModule where
  value := fields.value
  failure := if fields.failure = [] then none else some (Utf8.decode fields.failure)
  chunk := Utf8.decode fields.chunk
  text := fields.text

theorem fieldLaidOut_iff {data bytes : Bytes} :
    FieldLaidOut data bytes ↔ data.length < UInt32.size ∧ bytes = field data := by
  constructor
  · rintro ⟨length, hlength, hdata, rfl⟩
    have hback := Word.encode_decode length
    have hlt := Word.decode_lt length
    rw [hlength, hdata] at hback hlt
    exact ⟨hlt, congrArg (· ++ data) hback.symm⟩
  · rintro ⟨hlt, rfl⟩
    exact ⟨_, Word.length_encode 4 _, Word.decode_encode hlt, rfl⟩

theorem valueLaidOut_iff {value : Option Int64} {bytes : Bytes} :
    ValueLaidOut value bytes ↔ bytes = valueField value := by
  constructor
  · intro h
    cases h with
    | absent => rfl
    | @present v eight hlength hv =>
        have hback := Word.encode_decode eight
        rw [hlength, hv] at hback
        rw [← hback]
        exact (congrArg (1 :: ·) (List.append_nil _)).symm
  · rintro rfl
    cases value with
    | none => exact .absent
    | some v =>
        have hlength := length_valueBytes v
        have hv : Word.decode (valueBytes v) = v.toUInt64.toNat :=
          Word.decode_encode v.toUInt64.toNat_lt
        have hfield : valueField (some v) = 1 :: valueBytes v :=
          congrArg (1 :: ·) (List.append_nil _)
        rw [hfield]
        exact .present hlength hv

theorem Fields.laidOut_iff {fields : Fields} {bytes : Bytes} :
    fields.LaidOut bytes ↔
      fields.failure.length < UInt32.size ∧ fields.chunk.length < UInt32.size ∧
        fields.text.length < UInt32.size ∧
          bytes = written fields.value fields.failure fields.chunk fields.text := by
  constructor
  · rintro ⟨hvalue, hfailure, hchunk, htext⟩
    obtain rfl := valueLaidOut_iff.mp hvalue
    obtain ⟨hfailureFits, rfl⟩ := fieldLaidOut_iff.mp hfailure
    obtain ⟨hchunkFits, rfl⟩ := fieldLaidOut_iff.mp hchunk
    obtain ⟨htextFits, rfl⟩ := fieldLaidOut_iff.mp htext
    exact ⟨hfailureFits, hchunkFits, htextFits, rfl⟩
  · rintro ⟨hfailure, hchunk, htext, rfl⟩
    exact .mk (valueLaidOut_iff.mpr rfl) (fieldLaidOut_iff.mpr ⟨hfailure, rfl⟩)
      (fieldLaidOut_iff.mpr ⟨hchunk, rfl⟩) (fieldLaidOut_iff.mpr ⟨htext, rfl⟩)

theorem ofBytes?_eq_some_iff_laidOut {bytes : Bytes} {m : CompiledModule} :
    ofBytes? bytes = some m ↔ ∃ fields : Fields, fields.LaidOut bytes ∧ m = fields.module := by
  simp only [ofBytes?_eq_some_iff, Fields.laidOut_iff]
  constructor
  · rintro ⟨failure, chunk, hfailure, hchunk, htext, hbytes, hm, hn⟩
    refine ⟨⟨m.value, failure, chunk, m.text⟩, ⟨hfailure, hchunk, htext, hbytes⟩, ?_⟩
    obtain ⟨value, _, _, text⟩ := m
    obtain rfl := hm
    obtain rfl := hn
    rfl
  · rintro ⟨fields, ⟨hfailure, hchunk, htext, hbytes⟩, rfl⟩
    exact ⟨fields.failure, fields.chunk, hfailure, hchunk, htext, hbytes, rfl, rfl⟩

/-! ## One layout, and nothing behind it -/

theorem valueField_append_inj {value value' : Option Int64} {rest rest' : Bytes}
    (h : valueField value ++ rest = valueField value' ++ rest') :
    value = value' ∧ rest = rest' := by
  have hread := readValue?_eq_some_iff.mpr h
  rw [readValue?_eq_some_iff.mpr rfl] at hread
  exact Prod.mk.inj (Option.some.inj hread)

theorem field_append_inj {data data' rest rest' : Bytes} (hdata : data.length < UInt32.size)
    (hdata' : data'.length < UInt32.size) (h : field data ++ rest = field data' ++ rest') :
    data = data' ∧ rest = rest' := by
  have hread := readField?_eq_some_iff.mpr ⟨hdata', h⟩
  rw [readField?_eq_some_iff.mpr ⟨hdata, rfl⟩] at hread
  exact Prod.mk.inj (Option.some.inj hread)

/-- No layout goes on behind another. -/
theorem laidOut_append {fields fields' : Fields} {bytes more : Bytes} (h : fields.LaidOut bytes)
    (h' : fields'.LaidOut (bytes ++ more)) : fields' = fields ∧ more = [] := by
  obtain ⟨hfailure, hchunk, htext, rfl⟩ := Fields.laidOut_iff.mp h
  obtain ⟨hfailure', hchunk', htext', hsame⟩ := Fields.laidOut_iff.mp h'
  simp only [written, List.append_assoc, List.append_cancel_left_eq] at hsame
  obtain ⟨hvalues, hsame⟩ := valueField_append_inj hsame
  obtain ⟨hfailures, hsame⟩ := field_append_inj hfailure hfailure' hsame
  obtain ⟨hchunks, hsame⟩ := field_append_inj hchunk hchunk' hsame
  rw [← List.append_nil (field fields'.text)] at hsame
  obtain ⟨htexts, hmore⟩ := field_append_inj htext htext' hsame
  cases fields
  cases fields'
  simp only at hvalues hfailures hchunks htexts
  exact ⟨by rw [hvalues, hfailures, hchunks, htexts], hmore⟩

theorem laidOut_unique {fields fields' : Fields} {bytes : Bytes} (h : fields.LaidOut bytes)
    (h' : fields'.LaidOut bytes) : fields' = fields :=
  (laidOut_append h ((List.append_nil bytes).symm ▸ h')).1

/-! ## Dumped and read again -/

theorem take_field (data rest : Bytes) :
    (field data ++ rest).take 4 = Word.encode 4 data.length := by
  rw [field, List.append_assoc]
  exact List.take_left' (Word.length_encode 4 _)

/-- A module is read back from its binary form just if the lengths of its fields
can be written. -/
theorem ofBytes?_toBytes_iff {m : CompiledModule} (hmessage : m.failure ≠ some "") :
    ofBytes? m.toBytes = some m ↔ m.Measurable := by
  refine ⟨fun h => ?_, ofBytes?_toBytes hmessage⟩
  obtain ⟨failure, chunk, hfailure, hchunk, htext, hbytes, -, -⟩ := ofBytes?_eq_some_iff.mp h
  simp only [toBytes_eq_written, written, List.append_assoc, List.append_cancel_left_eq] at hbytes
  -- a length that was cut off would have to be made up for by the other field
  have hword := congrArg (fun bytes => Word.decode (bytes.take 4)) hbytes
  simp only [take_field, Word.decode_encode_mod] at hword
  have hlength := congrArg List.length hbytes
  simp only [field, List.length_append, Word.length_encode] at hlength
  unfold UInt32.size at hfailure hchunk htext
  constructor
  · unfold UInt32.size
    omega
  · unfold UInt32.size
    omega
  · exact htext

theorem Fields.getD_failure (fields : Fields) :
    fields.module.failure.getD "" = Utf8.decode fields.failure := by
  unfold Fields.module
  by_cases hfailure : fields.failure = []
  · rw [if_pos hfailure, hfailure]
    rfl
  · rw [if_neg hfailure]
    rfl

theorem Fields.failure_ne (fields : Fields) : fields.module.failure ≠ some "" := by
  unfold Fields.module
  by_cases hfailure : fields.failure = []
  · rw [if_pos hfailure]
    exact nofun
  · rw [if_neg hfailure]
    exact fun hempty => hfailure (Utf8.decode_eq_empty_iff.mp (Option.some.inj hempty))

theorem Fields.toBytes_module {fields : Fields} {bytes : Bytes} (h : fields.LaidOut bytes)
    (hfailure : ∃ message, fields.failure = Utf8.encode message)
    (hchunk : ∃ name, fields.chunk = Utf8.encode name) : fields.module.toBytes = bytes := by
  obtain ⟨message, hmessage⟩ := hfailure
  obtain ⟨name, hname⟩ := hchunk
  obtain ⟨-, -, -, rfl⟩ := Fields.laidOut_iff.mp h
  have hchunk : fields.module.chunk = Utf8.decode fields.chunk := rfl
  rw [toBytes_eq_written, getD_failure, hchunk, hmessage, hname, Utf8.decode_encode,
    Utf8.decode_encode]
  rfl

theorem Fields.measurable_of_length {fields : Fields} {bytes : Bytes} (h : fields.LaidOut bytes)
    (hlength : 3 * bytes.length < UInt32.size) : fields.module.Measurable := by
  obtain ⟨-, -, htext, rfl⟩ := Fields.laidOut_iff.mp h
  have hfailure := Utf8.length_encode_decode_le fields.failure
  have hchunk := Utf8.length_encode_decode_le fields.chunk
  simp only [written, field, List.length_append, Word.length_encode] at hlength
  constructor
  · rw [getD_failure]
    omega
  · show (Utf8.encode (Utf8.decode fields.chunk)).length < _
    omega
  · exact htext

/-- A message of bytes none of which can stand in a text is dumped three times
as long, and then its length may be one that cannot be written. -/
theorem Fields.not_measurable_of_invalid {n : Nat} (h : UInt32.size ≤ 3 * n)
    (value : Option Int64) (chunk text : Bytes) :
    ¬ (Fields.module ⟨value, List.replicate n 0xFF, chunk, text⟩).Measurable := by
  rintro ⟨hfailure, -, -⟩
  rw [getD_failure, Utf8.length_encode_decode_replicate] at hfailure
  exact absurd hfailure (Nat.not_lt.mpr h)

/-! ## Reading in place -/

open Bytes (add? slice? add?_of_lt slice?_of_le slice?_length)

/-- A field at the start of a slice, and the slice behind it. -/
def fieldAt? (rest : Bytes) : Option (Option (Bytes × Bytes)) :=
  if rest.length < 4 then some none
  else do
    let length ← slice? rest 0 4
    let stop ← add? 4 (Word.decode length)
    match slice? rest 4 stop with
    | none => some none
    | some data => do
      let later ← slice? rest stop rest.length
      return some (data, later)

/-- An optional value at the start of a slice behind the byte that tells whether
it is there, and the slice behind it. -/
def valueAt? (presence : UInt8) (rest : Bytes) : Option (Option (Option Int64 × Bytes)) :=
  if presence = 0 then some (some (none, rest))
  else if presence = 1 then
    if rest.length < 8 then some none
    else do
      let eight ← slice? rest 0 8
      let later ← slice? rest 8 rest.length
      return some (some (valueOfBytes eight), later)
  else some none

theorem fieldAt?_eq (rest : Bytes) : fieldAt? rest = some (readField? rest) := by
  unfold fieldAt? readField? Word.read?
  by_cases hshort : rest.length < 4
  · rw [if_pos hshort, if_pos hshort]
    rfl
  · have hlt := Word.decode_take_lt 4 rest
    have hlength := slice?_of_le rest (Nat.zero_le 4) (Nat.not_lt.mp hshort)
    -- a length of four bytes is far from the end of the machine word
    have hstop : add? 4 (Word.decode (rest.take 4)) = some (4 + Word.decode (rest.take 4)) :=
      add?_of_lt (by unfold UInt64.size; omega)
    rw [if_neg hshort, if_neg hshort, hlength]
    simp only [List.drop_zero, Nat.sub_zero, hstop, Option.bind_eq_bind, Option.bind_some]
    by_cases hlong : (rest.drop 4).length < Word.decode (rest.take 4)
    · have hdata : slice? rest 4 (4 + Word.decode (rest.take 4)) = none := by
        rw [List.length_drop] at hlong
        exact if_neg (by omega)
      rw [hdata, if_pos hlong]
    · have hinside : 4 + Word.decode (rest.take 4) ≤ rest.length := by
        rw [List.length_drop] at hlong
        omega
      rw [slice?_of_le rest (Nat.le_add_right 4 _) hinside, slice?_length hinside, if_neg hlong,
        Nat.add_sub_cancel_left, List.drop_drop]
      rfl

theorem valueAt?_eq (presence : UInt8) (rest : Bytes) :
    valueAt? presence rest = some (readValue? (presence :: rest)) := by
  unfold valueAt?
  by_cases habsent : presence = 0
  · subst habsent
    rfl
  · rw [if_neg habsent]
    by_cases hpresent : presence = 1
    · subst hpresent
      rw [if_pos rfl]
      by_cases hshort : rest.length < 8
      · rw [if_pos hshort]
        exact congrArg some (if_pos hshort).symm
      · have hinside := Nat.not_lt.mp hshort
        rw [if_neg hshort, slice?_of_le rest (Nat.zero_le 8) hinside, slice?_length hinside]
        exact congrArg some (if_neg hshort).symm
    · rw [if_neg hpresent]
      unfold readValue?
      split
      · rename_i heq
        exact absurd (List.cons.inj heq).1 habsent
      · rename_i heq
        exact absurd (List.cons.inj heq).1 hpresent
      · rfl

/-- A compiled module, read in place. -/
def ofBytesAt? (bytes : Bytes) : Option (Option CompiledModule) :=
  if bytes.length < 6 then some none
  else do
    let opening ← slice? bytes 0 4
    let found ← bytes[4]?
    if opening ≠ tag ∨ found ≠ version then
      return none
    let rest ← slice? bytes 6 bytes.length
    let presence ← bytes[5]?
    match ← valueAt? presence rest with
    | none => some none
    | some (value, rest) =>
      match ← fieldAt? rest with
      | none => some none
      | some (failure, rest) =>
        match ← fieldAt? rest with
        | none => some none
        | some (chunk, rest) =>
          match ← fieldAt? rest with
          | none => some none
          | some (text, rest) =>
            if rest ≠ [] then some none
            else some (some (Fields.module ⟨value, failure, chunk, text⟩))

theorem Fields.LaidOut.length_le {fields : Fields} {bytes : Bytes} (h : fields.LaidOut bytes) :
    6 ≤ bytes.length := by
  obtain ⟨-, -, -, rfl⟩ := Fields.laidOut_iff.mp h
  simp only [written, tag, field, List.length_append, List.length_cons, List.length_nil,
    Word.length_encode]
  omega

/-- Reading in place never leaves the bytes, and gives what reading from the
front gives. -/
theorem ofBytesAt?_eq (bytes : Bytes) : ofBytesAt? bytes = some (ofBytes? bytes) := by
  unfold ofBytesAt?
  by_cases hshort : bytes.length < 6
  · have hnone : ofBytes? bytes = none := by
      refine Option.eq_none_iff_forall_ne_some.mpr fun m hm => ?_
      obtain ⟨fields, hlaid, -⟩ := ofBytes?_eq_some_iff_laidOut.mp hm
      exact absurd hlaid.length_le (Nat.not_le.mpr hshort)
    rw [if_pos hshort, hnone]
  · have hversion : 4 < bytes.length := by omega
    have hpresence : 5 < bytes.length := by omega
    have hopening := slice?_of_le bytes (Nat.zero_le 4) (by omega)
    have hrest : slice? bytes 6 bytes.length = some (bytes.drop 6) :=
      slice?_length (Nat.not_lt.mp hshort)
    have htake : bytes.take (tag ++ [version]).length = bytes.take 4 ++ [bytes[4]] :=
      List.take_succ_eq_append_getElem hversion
    have hdrop : bytes.drop (tag ++ [version]).length = bytes[5] :: bytes.drop 6 :=
      List.drop_eq_getElem_cons hpresence
    have hhead : bytes.take 4 ++ [bytes[4]] ≠ tag ++ [version] ↔
        bytes.take 4 ≠ tag ∨ bytes[4] ≠ version := by
      have hlast : [bytes[4]].length = [version].length := rfl
      rw [Ne, List.append_eq_append_iff_of_size_eq_right hlast, not_and_or, List.singleton_inj]
    rw [if_neg hshort]
    unfold ofBytes?
    simp only [hopening, hrest, htake, hdrop, hhead, valueAt?_eq, fieldAt?_eq,
      List.getElem?_eq_getElem hversion, List.getElem?_eq_getElem hpresence, List.drop_zero,
      Nat.sub_zero, Option.bind_eq_bind, Option.bind_some, Option.bind_none]
    split
    · rfl
    · rcases readValue? (bytes[5] :: bytes.drop 6) with _ | ⟨value, rest⟩
      · rfl
      · simp only [Option.bind_some]
        rcases readField? rest with _ | ⟨failure, rest⟩
        · rfl
        · simp only [Option.bind_some]
          rcases readField? rest with _ | ⟨chunk, rest⟩
          · rfl
          · simp only [Option.bind_some]
            rcases readField? rest with _ | ⟨text, rest⟩
            · rfl
            · simp only [Option.bind_some]
              split
              · rfl
              · rfl

end CompiledModule

namespace Interpreter

open CompiledModule

theorem read_eq_ok_iff_of_head {bytes : Bytes} (h : bytes.head? = some 0x1B) (name : String)
    (m : CompiledModule) : read bytes name = .ok m ↔ ofBytes? bytes = some m := by
  rw [read, if_pos (show bytes.head? = tag.head? from h)]
  constructor
  · intro h
    cases hfound : ofBytes? bytes with
    | none =>
        rw [hfound] at h
        cases h
    | some found =>
        rw [hfound] at h
        exact congrArg some (Except.ok.inj h)
  · intro h
    rw [h]

theorem read_eq_error_of_not_laidOut {bytes : Bytes} (h : bytes.head? = some 0x1B)
    (hnot : ∀ fields : Fields, ¬ fields.LaidOut bytes) (name : String) :
    ∃ message, read bytes name = .error message := by
  cases hread : read bytes name with
  | error message => exact ⟨message, rfl⟩
  | ok m =>
      obtain ⟨fields, hlaid, -⟩ :=
        ofBytes?_eq_some_iff_laidOut.mp ((read_eq_ok_iff_of_head h name m).mp hread)
      exact absurd hlaid (hnot fields)

theorem read_toBytes_iff {m : CompiledModule} (hmessage : m.failure ≠ some "") (name : String) :
    read m.toBytes name = .ok m ↔ m.Measurable := by
  rw [read_eq_ok_iff_of_head (head?_toBytes m), ofBytes?_toBytes_iff hmessage]

/-- What was read is dumped with a length that does not fit, if its message was
of bytes that are not UTF-8 and more than a third of 4 GiB. -/
theorem read_of_invalid {n : Nat} (hhigh : UInt32.size ≤ 3 * n) {length : Bytes}
    (hlength : length.length = 4) (hdecode : Word.decode length = n) (name : String) :
    let message : Bytes := List.replicate n 0xFF
    let bytes : Bytes := [0x1B, 0x54, 0x4E, 0x59, 1] ++
      ([0] ++ ((length ++ message) ++ ([0, 0, 0, 0] ++ [0, 0, 0, 0])))
    let unit : CompiledModule := ⟨none, some (Utf8.decode message), "", []⟩
    read bytes name = .ok unit ∧ read unit.toBytes name ≠ .ok unit := by
  intro message bytes unit
  let fields : Fields := ⟨none, message, [], []⟩
  have hmessage : message.length = n := List.length_replicate
  have hempty : FieldLaidOut [] [0, 0, 0, 0] := ⟨[0, 0, 0, 0], rfl, rfl, rfl⟩
  have hlaid : fields.LaidOut bytes :=
    .mk .absent ⟨length, hlength, hdecode.trans hmessage.symm, rfl⟩ hempty hempty
  have hne : message ≠ [] := by
    intro hnil
    rw [hnil] at hmessage
    obtain rfl : n = 0 := hmessage.symm
    exact absurd hhigh (by decide)
  have hunit : unit = fields.module := by
    have hfailure : fields.module.failure = some (Utf8.decode message) := if_neg hne
    exact congrArg (fun failure => CompiledModule.mk none failure "" []) hfailure.symm
  have hfound : ofBytes? bytes = some unit :=
    ofBytes?_eq_some_iff_laidOut.mpr ⟨fields, hlaid, hunit⟩
  refine ⟨(read_eq_ok_iff_of_head rfl name unit).mpr hfound, fun hagain => ?_⟩
  rw [hunit, read_toBytes_iff fields.failure_ne] at hagain
  exact Fields.not_measurable_of_invalid hhigh none [] [] hagain

/-- Bytes that begin like a compiled module are read just if they are laid out
as one, in place without leaving them, and as the module they are laid out as,
under whatever name.  They are laid out in one way, and neither a part of them
nor more than them is read.  What the module is dumped as are the same bytes if
they held texts, and it is read back as the same module just if the lengths of
its fields can be written, as they can if the bytes were no more than a third
of 4 GiB. -/
theorem compiled_module_is_read_by_its_layout {bytes : Bytes} (hhead : bytes.head? = some 0x1B) :
    (∀ {σ : Type} [Feed σ] (interpreter : Interpreter) (feed : σ) (chunk : Option String),
      (Feed.drain feed).1 = bytes →
        (interpreter.load feed chunk).1 = read bytes (chunk.getD anonymous)) ∧
    (∀ name m, read bytes name = .ok m ↔
      ∃ fields : Fields, fields.LaidOut bytes ∧ m = fields.module) ∧
    ofBytesAt? bytes = some (ofBytes? bytes) ∧
    ∀ fields : Fields, fields.LaidOut bytes →
      (∀ fields' : Fields, fields'.LaidOut bytes → fields' = fields) ∧
      ((∃ message, fields.failure = Utf8.encode message) →
        (∃ chunk, fields.chunk = Utf8.encode chunk) → fields.module.toBytes = bytes) ∧
      (∀ name, read fields.module.toBytes name = .ok fields.module ↔ fields.module.Measurable) ∧
      (3 * bytes.length < UInt32.size → fields.module.Measurable) ∧
      (∀ front name, front <+: bytes → front ≠ [] → front ≠ bytes →
        ∃ message, read front name = .error message) ∧
      ∀ more name, more ≠ [] → ∃ message, read (bytes ++ more) name = .error message := by
  refine ⟨?_, ?_, ofBytesAt?_eq bytes, fun fields hlaid => ⟨?_, ?_, ?_, ?_, ?_, ?_⟩⟩
  · intro σ _ interpreter feed chunk hdrain
    rw [load_eq, hdrain]
  · intro name m
    rw [read_eq_ok_iff_of_head hhead, ofBytes?_eq_some_iff_laidOut]
  · intro fields' hlaid'
    exact laidOut_unique hlaid hlaid'
  · exact Fields.toBytes_module hlaid
  · exact read_toBytes_iff fields.failure_ne
  · exact Fields.measurable_of_length hlaid
  · rintro front name ⟨more, rfl⟩ hfront hne
    have hopens : front.head? = some 0x1B := by
      rwa [List.head?_append_of_ne_nil front hfront] at hhead
    refine read_eq_error_of_not_laidOut hopens (fun fields' hlaid' => ?_) name
    have hmore := (laidOut_append hlaid' hlaid).2
    exact hne (by rw [hmore, List.append_nil])
  · intro more name hmore
    have hne : bytes ≠ [] := fun hnil => by rw [hnil] at hhead; cases hhead
    have hopens : (bytes ++ more).head? = some 0x1B := by
      rw [List.head?_append_of_ne_nil bytes hne, hhead]
    refine read_eq_error_of_not_laidOut hopens (fun fields' hlaid' => ?_) name
    exact hmore (laidOut_append hlaid hlaid').2

/-- A message of 1431655766 bytes that are not UTF-8, which is dumped as two
bytes more than a length can tell: what is read is not read back from its
dump. -/
theorem long_message_is_not_read_again :
    let message : Bytes := List.replicate 1431655766 0xFF
    let bytes : Bytes := [0x1B, 0x54, 0x4E, 0x59, 1] ++
      ([0] ++ (([0x56, 0x55, 0x55, 0x55] ++ message) ++ ([0, 0, 0, 0] ++ [0, 0, 0, 0])))
    let unit : CompiledModule := ⟨none, some (Utf8.decode message), "", []⟩
    read bytes "n" = .ok unit ∧ read unit.toBytes "n" ≠ .ok unit :=
  read_of_invalid (by decide) rfl (by decide) "n"

/-- A module with a message that is not UTF-8: its dump is longer and is read
as the same module, and without its last byte or with one more it is rejected. -/
theorem invalid_message_is_read_again :
    let bytes : Bytes := [0x1B, 0x54, 0x4E, 0x59, 1, 1, 7, 0, 0, 0, 0, 0, 0, 0,
      1, 0, 0, 0, 0xFF, 0, 0, 0, 0, 1, 0, 0, 0, 0x2D]
    let unit : CompiledModule := ⟨some 7, some "\uFFFD", "", [0x2D]⟩
    bytes.head? = some 0x1B ∧ read bytes "n" = .ok unit ∧ unit.toBytes.length = 30 ∧
      read unit.toBytes "n" = .ok unit ∧ (∃ message, read (bytes.take 27) "n" = .error message) ∧
      ∃ message, read (bytes ++ [0]) "n" = .error message := by
  intro bytes unit
  let fields : Fields := ⟨some 7, [0xFF], [], [0x2D]⟩
  have hlaid : fields.LaidOut bytes :=
    Fields.laidOut_iff.mpr ⟨by decide, by decide, by decide, by decide⟩
  have hunit : unit = fields.module := by decide
  obtain ⟨-, hread, -, hfields⟩ :=
    compiled_module_is_read_by_its_layout (show bytes.head? = some 0x1B from rfl)
  obtain ⟨-, -, hagain, hfits, hfront, hmore⟩ := hfields fields hlaid
  refine ⟨rfl, (hread "n" unit).mpr ⟨fields, hlaid, hunit⟩, ?_, ?_, ?_, ?_⟩
  · rw [toBytes_eq_written]
    decide
  · rw [hunit]
    exact (hagain "n").mpr (hfits (by decide))
  · exact hfront _ "n" (List.take_prefix 27 bytes) (by decide) (by decide)
  · exact hmore [0] "n" (by decide)

end Interpreter

end SealedModules
