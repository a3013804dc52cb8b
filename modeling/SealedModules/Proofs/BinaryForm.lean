/-
# The binary form

Every reader of the binary form is described by the bytes it accepts: a field
or a value is read exactly if the bytes open with it written out.
Put together, bytes stand for a module exactly if they are its tag, its value
and three fields with nothing after them (`ofBytes?_eq_some_iff`).

A module is not read back from its own binary form if its message is empty,
since that is written like no message at all.  No module that was ever read
has such a message (`failure_of_read`): the binary form has no way of saying
it, and a script cannot, because the line it stands on has been trimmed.
-/
import SealedModules.Proofs.Chunks
import SealedModules.Proofs.Scripts
import SealedModules.Proofs.Utf8
import SealedModules.Proofs.Word
import SealedModules.Script.Interpreter

namespace SealedModules

namespace CompiledModule

/-! ## Fields and values -/

/-- A field written out: its length and its bytes. -/
def field (data : Bytes) : Bytes := Word.encode 4 data.length ++ data

theorem flatten_fieldPieces (data : Bytes) : (fieldPieces data).flatten = field data := by
  rw [fieldPieces, List.flatten_cons, Bytes.flatten_chunks]
  rfl

theorem readField?_eq_some_iff {bytes data rest : Bytes} :
    readField? bytes = some (data, rest) ↔
      data.length < UInt32.size ∧ bytes = field data ++ rest := by
  simp only [readField?, Option.bind_eq_bind, Option.bind_eq_some_iff, Prod.exists,
    Word.read?_eq_some_iff]
  constructor
  · rintro ⟨length, more, ⟨hn, rfl⟩, h⟩
    split at h
    · cases h
    · rename_i hl
      obtain ⟨rfl, rfl⟩ := Prod.mk.inj (Option.some.inj h)
      have htake : (more.take length).length = length := by
        rw [List.length_take]
        omega
      refine ⟨by rw [htake]; exact hn, ?_⟩
      rw [field, htake, List.append_assoc, List.take_append_drop]
  · rintro ⟨hn, rfl⟩
    refine ⟨data.length, data ++ rest, ⟨hn, by rw [field, List.append_assoc]⟩, ?_⟩
    rw [if_neg (by simp), List.take_left, List.drop_left]

/-- An optional value written out, after the byte that tells whether it is
there. -/
def valueField (value : Option Int64) : Bytes := (valuePieces value).flatten

theorem length_valueBytes (v : Int64) : (valueBytes v).length = 8 :=
  Word.length_encode 8 _

theorem valueOfBytes_valueBytes (v : Int64) : valueOfBytes (valueBytes v) = v := by
  rw [valueOfBytes, valueBytes, Word.decode_encode v.toUInt64.toNat_lt, UInt64.ofNat_toNat]
  rfl

theorem valueBytes_valueOfBytes {bytes : Bytes} (h : bytes.length = 8) :
    valueBytes (valueOfBytes bytes) = bytes := by
  have hlt := Word.decode_lt bytes
  have hback := Word.encode_decode bytes
  rw [h] at hlt hback
  have hvalue : (valueOfBytes bytes).toUInt64.toNat = Word.decode bytes :=
    UInt64.toNat_ofNat_of_lt' hlt
  rw [valueBytes, hvalue, hback]

theorem readValue?_eq_some_iff {bytes rest : Bytes} {value : Option Int64} :
    readValue? bytes = some (value, rest) ↔ bytes = valueField value ++ rest := by
  constructor
  · intro h
    unfold readValue? at h
    split at h
    · obtain ⟨rfl, rfl⟩ := Prod.mk.inj (Option.some.inj h)
      rfl
    · rename_i more
      split at h
      · cases h
      · rename_i hl
        obtain ⟨rfl, rfl⟩ := Prod.mk.inj (Option.some.inj h)
        have htake : (more.take 8).length = 8 := by
          rw [List.length_take]
          omega
        rw [valueField, valuePieces, valueBytes_valueOfBytes htake]
        simp
    · cases h
  · rintro rfl
    cases value with
    | none => rfl
    | some v =>
        have hlength := length_valueBytes v
        simp only [valueField, valuePieces, List.flatten_cons, List.flatten_nil, List.append_nil,
          List.cons_append, List.nil_append, readValue?]
        rw [if_neg (by rw [List.length_append, hlength]; omega), List.take_left' hlength,
          List.drop_left' hlength, valueOfBytes_valueBytes]

/-! ## Whole modules -/

/-- The binary form with fields that are any bytes. -/
def written (value : Option Int64) (failure chunk text : Bytes) : Bytes :=
  tag ++ [version] ++ (valueField value ++ (field failure ++ (field chunk ++ field text)))

theorem toBytes_eq_written (m : CompiledModule) :
    m.toBytes =
      written m.value (Utf8.encode (m.failure.getD "")) (Utf8.encode m.chunk) m.text := by
  simp only [toBytes, pieces, written, List.flatten_append, List.append_assoc,
    flatten_fieldPieces]
  rfl

/-- Bytes stand for a module exactly if they are written like one. -/
theorem ofBytes?_eq_some_iff {bytes : Bytes} {m : CompiledModule} :
    ofBytes? bytes = some m ↔
      ∃ failure chunk : Bytes,
        failure.length < UInt32.size ∧ chunk.length < UInt32.size ∧ m.text.length < UInt32.size ∧
          bytes = written m.value failure chunk m.text ∧
          m.failure = (if failure = [] then none else some (Utf8.decode failure)) ∧
          m.chunk = Utf8.decode chunk := by
  unfold ofBytes?
  simp only [Option.bind_eq_bind]
  constructor
  · intro h
    split at h
    · cases h
    · rename_i hopen
      simp only [Option.bind_eq_some_iff, Prod.exists] at h
      obtain ⟨value, more₁, hv, failure, more₂, hf, chunk, more₃, hc, text, rest, ht, h⟩ := h
      split at h
      · cases h
      · rename_i hend
        obtain rfl := Option.some.inj h
        obtain ⟨hfailure, rfl⟩ := readField?_eq_some_iff.mp hf
        obtain ⟨hchunk, rfl⟩ := readField?_eq_some_iff.mp hc
        obtain ⟨htext, rfl⟩ := readField?_eq_some_iff.mp ht
        obtain rfl : rest = [] := Decidable.not_not.mp hend
        refine ⟨failure, chunk, hfailure, hchunk, htext, ?_, rfl, rfl⟩
        have hsplit := List.take_append_drop (tag ++ [version]).length bytes
        rw [Decidable.not_not.mp hopen, readValue?_eq_some_iff.mp hv, List.append_nil] at hsplit
        exact hsplit.symm
  · rintro ⟨failure, chunk, hfailure, hchunk, htext, rfl, hm, hn⟩
    have hopen : (written m.value failure chunk m.text).take (tag ++ [version]).length =
        tag ++ [version] := List.take_left
    have hrest : (written m.value failure chunk m.text).drop (tag ++ [version]).length =
        valueField m.value ++ (field failure ++ (field chunk ++ field m.text)) := List.drop_left
    rw [if_neg (by rw [hopen]; exact Decidable.not_not.mpr rfl), hrest]
    simp only [Option.bind_eq_some_iff, Prod.exists]
    refine ⟨m.value, _, readValue?_eq_some_iff.mpr rfl, failure, _,
      readField?_eq_some_iff.mpr ⟨hfailure, rfl⟩,
      chunk, _, readField?_eq_some_iff.mpr ⟨hchunk, rfl⟩,
      m.text, [], readField?_eq_some_iff.mpr ⟨htext, (List.append_nil _).symm⟩, ?_⟩
    rw [if_neg (Decidable.not_not.mpr rfl), ← hm, ← hn]
    rfl

/-- The lengths of all fields can be written. -/
structure Measurable (m : CompiledModule) : Prop where
  failure : (Utf8.encode (m.failure.getD "")).length < UInt32.size
  chunk : (Utf8.encode m.chunk).length < UInt32.size
  text : m.text.length < UInt32.size

theorem measurable_of_length {m : CompiledModule} (h : m.toBytes.length < UInt32.size) :
    m.Measurable := by
  rw [toBytes_eq_written] at h
  simp only [written, field, List.length_append, Word.length_encode] at h
  exact ⟨by omega, by omega, by omega⟩

theorem ofBytes?_toBytes {m : CompiledModule} (hmessage : m.failure ≠ some "")
    (hmeasurable : m.Measurable) : ofBytes? m.toBytes = some m := by
  rw [toBytes_eq_written]
  refine ofBytes?_eq_some_iff.mpr ⟨Utf8.encode (m.failure.getD ""), Utf8.encode m.chunk,
    hmeasurable.failure, hmeasurable.chunk, hmeasurable.text, rfl, ?_,
    (Utf8.decode_encode _).symm⟩
  cases hfailure : m.failure with
  | none => rfl
  | some message =>
      have hne : Utf8.encode message ≠ [] := by
        intro hnil
        have hempty := Utf8.decode_eq_empty_iff.mpr hnil
        rw [Utf8.decode_encode] at hempty
        exact hmessage (hfailure.trans (congrArg some hempty))
      rw [Option.getD_some, if_neg hne, Utf8.decode_encode]

theorem head?_toBytes (m : CompiledModule) : m.toBytes.head? = tag.head? := by
  rw [toBytes_eq_written]
  rfl

end CompiledModule

/-! ## What the interpreter reads -/

namespace Interpreter

theorem failure_of_read {bytes : Bytes} {chunk : String} {m : CompiledModule}
    (h : read bytes chunk = .ok m) : m.failure ≠ some "" := by
  unfold read at h
  split at h
  · split at h
    · rename_i loaded hbinary
      obtain rfl := Except.ok.inj h
      obtain ⟨failure, -, -, -, -, -, hfailure, -⟩ :=
        CompiledModule.ofBytes?_eq_some_iff.mp hbinary
      rw [hfailure]
      split
      · exact nofun
      · rename_i hne
        intro hempty
        exact hne (Utf8.decode_eq_empty_iff.mp (Option.some.inj hempty))
    · cases h
  · exact Script.failure_of_compile h

theorem read_toBytes {m : CompiledModule} (hmessage : m.failure ≠ some "")
    (hmeasurable : m.Measurable) (chunk : String) : read m.toBytes chunk = .ok m := by
  rw [read, if_pos m.head?_toBytes, CompiledModule.ofBytes?_toBytes hmessage hmeasurable]

end Interpreter

end SealedModules
