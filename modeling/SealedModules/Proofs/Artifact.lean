/-
# What a dump leaves

A dump first writes the placeholder and the payload, one after the other
(`toOutput_eq`), and then puts the header where the placeholder is.  It
succeeds exactly if there is room for all of this (`exists_toOutput_iff`), the
header counted twice, and what it leaves then, the `artifact`, depends on the
module and the sealer alone: the block size and the pieces of the binary form
are not seen in it.

A file is emptied when it is opened for a dump, so a dump to a file that
succeeds leaves the artifact and nothing else (`toFile_ok_iff`).  Room for the
artifact is not enough for that, and neither is a dump that was written: the
file has to be closed as well.

The artifact is the binary form, wrapped if protection is on, and what is
reported of it are its lengths (`isDump_artifact`).
-/
import SealedModules.Dump
import SealedModules.Proofs.BinaryForm
import SealedModules.Proofs.Files
import SealedModules.Proofs.Wrapping
import SealedModules.Proofs.Writing

namespace SealedModules

namespace Dump

/-- The bytes that a module is dumped to. -/
def artifact (sealer : Sealer) (unit : CompiledModule) : Bytes :=
  if sealer.isProtecting then
    (Sealer.header unit.toBytes).toBytes ++ sealer.encode unit.toBytes
  else unit.toBytes

/-- What is written of a dump before the header: the placeholder and the
payload. -/
def body (sealer : Sealer) (unit : CompiledModule) : Bytes :=
  placeholder sealer ++ sealer.encode unit.toBytes

/-- What a dump that leaves the artifact reports. -/
def reportOf (sealer : Sealer) (unit : CompiledModule) : DumpReport :=
  ⟨unit.toBytes.length, headLength sealer + unit.toBytes.length, sealer.isProtecting⟩

/-- The header, if there is to be one, can declare the length of the payload. -/
def Fits (sealer : Sealer) (unit : CompiledModule) : Prop :=
  sealer.isProtecting = true → unit.toBytes.length < UInt32.size

variable (sealer : Sealer) (unit : CompiledModule) (blockSize : Nat)

theorem length_placeholder : (placeholder sealer).length = headLength sealer :=
  List.length_replicate

theorem length_body : (body sealer unit).length = headLength sealer + unit.toBytes.length := by
  rw [body, List.length_append, length_placeholder, Sealer.length_encode]

theorem drop_size_body (hp : sealer.isProtecting = true) :
    (body sealer unit).drop Envelope.size = sealer.encode unit.toBytes :=
  List.drop_left' ((length_placeholder sealer).trans (if_pos hp))

/-- The placeholder and the payload are taken like one string; what is left
to do is to finish. -/
theorem toOutput_eq (o : Output) :
    ∃ (outcome : Except Fault Unit) (o₁ : Output),
      o.Takes (body sealer unit) (outcome, o₁) ∧
        toOutput sealer unit blockSize o =
          match outcome with
          | .error fault => (.error (.writing, fault), o₁)
          | .ok () => finish sealer o₁ o.position := by
  have hhead := o.writeAll_takes (placeholder sealer)
  unfold toOutput
  simp only
  split
  · rename_i fault o₁ hwrite
    rw [hwrite] at hhead
    exact ⟨.error fault, o₁, hhead.append_of_error _, rfl⟩
  · rename_i o₁ hwrite
    rw [hwrite] at hhead
    have hbody := (SealingWriter.ofOutput o₁ sealer blockSize).writePieces_takes unit.pieces
    split
    · rename_i fault w' hpieces
      rw [hpieces] at hbody
      exact ⟨.error fault, w'.output, hhead.append hbody, rfl⟩
    · rename_i w' hpieces
      rw [hpieces] at hbody
      have hflush : o₁.Takes (sealer.encode unit.toBytes) (.ok (), w'.flush.output) :=
        ⟨hbody.outcome, hbody.extended.flush⟩
      exact ⟨.ok (), w'.flush.output, hhead.append hflush, rfl⟩

/-- Of the header as much is put in its place as there is room for, over as
many bytes. -/
theorem patch_eq {o : Output} {start : Nat} (hstart : start ≤ o.contents.length) (finish : Nat)
    (envelope : Envelope) :
    ∃ o', patch o start finish envelope =
        (if o.accepts Envelope.size = Envelope.size then .ok ()
          else .error (.rewriting, o.refusal), o') ∧
      o'.contents = o.contents.take start ++
        envelope.toBytes.take (o.accepts Envelope.size) ++
        o.contents.drop (start + o.accepts Envelope.size) := by
  have htakes := (o.seek start).writeAll_takes envelope.toBytes
  have houtcome := htakes.outcome
  have hcontents := htakes.extended.contents
  have htaken : (envelope.toBytes.take (o.accepts Envelope.size)).length =
      o.accepts Envelope.size := by
    rw [List.length_take, Envelope.length_toBytes, Nat.min_eq_left (o.accepts_le _)]
  have hsame : (o.seek start).accepts Envelope.size = o.accepts Envelope.size := rfl
  rw [Envelope.length_toBytes, hsame] at houtcome hcontents
  rw [Output.contents_seek, Output.position_seek hstart, htaken] at hcontents
  unfold patch
  cases hwrite : Writer.writeAll (o.seek start) envelope.toBytes with
  | mk outcome o₁ =>
      rw [hwrite] at houtcome hcontents
      obtain rfl : outcome = _ := houtcome
      by_cases hall : o.accepts Envelope.size = Envelope.size
      · rw [if_pos hall, if_pos hall]
        exact ⟨o₁.seek finish, rfl, by rw [Output.contents_seek, hcontents]⟩
      · rw [if_neg hall, if_neg hall]
        exact ⟨o₁, rfl, hcontents⟩

theorem payloadLength_of_extended {o o₁ : Output}
    (hext : o.Extended (body sealer unit) o₁) :
    o₁.position - o.position - headLength sealer = unit.toBytes.length ∧
      (⟨unit.toBytes.length, o₁.position - o.position, sealer.isProtecting⟩ : DumpReport) =
        reportOf sealer unit := by
  have hposition : o₁.position = o.position + (headLength sealer + unit.toBytes.length) := by
    rw [hext.position, length_body]
  refine ⟨by omega, ?_⟩
  rw [reportOf, hposition, Nat.add_sub_cancel_left]

variable {sealer} in
theorem finish_of_protecting (hp : sealer.isProtecting = true) {o o₁ : Output}
    (hahead : o.ahead = [])
    (hext : o.Extended (body sealer unit) o₁)
    (hlength : unit.toBytes.length < UInt32.size) :
    ∃ o', finish sealer o₁ o.position =
        (if o₁.accepts Envelope.size = Envelope.size then .ok (reportOf sealer unit)
          else .error (.rewriting, o₁.refusal), o') ∧
      o'.contents = o.contents ++
        ((Sealer.header unit.toBytes).toBytes.take (o₁.accepts Envelope.size) ++
          (body sealer unit).drop (o₁.accepts Envelope.size)) := by
  obtain ⟨hpayload, hreport⟩ := payloadLength_of_extended sealer unit hext
  have hcontents := hext.contents_of_ahead_eq_nil hahead
  have hstart : o.position ≤ o₁.contents.length :=
    Nat.le_trans (by rw [hext.position]; omega) o₁.position_le_length
  obtain ⟨o', hpatch, hresult⟩ := patch_eq hstart o₁.position (Sealer.header unit.toBytes)
  refine ⟨o', ?_, ?_⟩
  · rw [hp] at hreport
    rw [Sealer.header] at hpatch
    simp only [finish, hpayload, hreport, hp, Bool.not_true, Bool.false_eq_true, if_false,
      ge_iff_le, Nat.not_le.mpr hlength, hpatch]
    by_cases hall : o₁.accepts Envelope.size = Envelope.size
    · rw [if_pos hall, if_pos hall]
    · rw [if_neg hall, if_neg hall]
  · rw [hresult, hcontents, Output.position_of_ahead_eq_nil hahead, List.take_left,
      ← List.drop_drop, List.drop_left, List.append_assoc]

variable {sealer} in
/-- A payload whose length cannot be written is left behind its placeholder. -/
theorem finish_of_too_large (hp : sealer.isProtecting = true) {o o₁ : Output}
    (hext : o.Extended (body sealer unit) o₁)
    (hlength : ¬ unit.toBytes.length < UInt32.size) :
    finish sealer o₁ o.position = (.error (.writing, .payloadTooLarge), o₁) := by
  obtain ⟨hpayload, -⟩ := payloadLength_of_extended sealer unit hext
  simp only [finish, hpayload, hp, Bool.not_true, Bool.false_eq_true, if_false, ge_iff_le,
    Nat.not_lt.mp hlength, if_true]

theorem finish_of_room {o o₁ : Output} (hahead : o.ahead = [])
    (hext : o.Extended (body sealer unit) o₁) (hfits : Fits sealer unit)
    (hroom : o₁.accepts (headLength sealer) = headLength sealer) :
    ∃ o', finish sealer o₁ o.position = (.ok (reportOf sealer unit), o') ∧
      o'.contents = o.contents ++ artifact sealer unit := by
  cases hp : sealer.isProtecting with
  | false =>
      obtain ⟨hpayload, hreport⟩ := payloadLength_of_extended sealer unit hext
      have hplain : body sealer unit = unit.toBytes := by
        simp [body, placeholder, headLength, Sealer.encode, hp]
      refine ⟨o₁, ?_, ?_⟩
      · rw [hp] at hreport
        simp only [finish, hpayload, hreport, hp, Bool.not_false, if_true]
      · rw [hext.contents_of_ahead_eq_nil hahead, hplain, artifact, if_neg (by simp [hp])]
  | true =>
      rw [headLength, if_pos hp] at hroom
      obtain ⟨o', hfinish, hresult⟩ := finish_of_protecting unit hp hahead hext (hfits hp)
      rw [if_pos hroom] at hfinish
      refine ⟨o', hfinish, ?_⟩
      rw [hresult, hroom, drop_size_body sealer unit hp, artifact, if_pos hp,
        List.take_of_length_le (Envelope.length_toBytes _).le]

theorem fits_of_finish {o o₁ o' : Output} {report : DumpReport} (hahead : o.ahead = [])
    (hext : o.Extended (body sealer unit) o₁)
    (h : finish sealer o₁ o.position = (.ok report, o')) :
    Fits sealer unit ∧ o₁.accepts (headLength sealer) = headLength sealer := by
  cases hp : sealer.isProtecting with
  | false =>
      rw [headLength, if_neg (by simp [hp])]
      exact ⟨fun hon => absurd (hp.symm.trans hon) Bool.false_ne_true,
        Nat.le_zero.mp (o₁.accepts_le 0)⟩
  | true =>
      have hlength : unit.toBytes.length < UInt32.size := by
        by_contra hlong
        rw [finish_of_too_large unit hp hext hlong] at h
        cases (Prod.mk.inj h).1
      refine ⟨fun _ => hlength, ?_⟩
      obtain ⟨o₂, hfinish, -⟩ := finish_of_protecting unit hp hahead hext hlength
      rw [headLength, if_pos hp]
      by_contra hless
      rw [hfinish, if_neg hless] at h
      cases (Prod.mk.inj h).1

/-- How many bytes a dump writes, those of the header twice. -/
def effort (sealer : Sealer) (unit : CompiledModule) : Nat :=
  (body sealer unit).length + headLength sealer

/-- A dump at the end of an output succeeds if its header fits and there is
room for all that it writes. -/
theorem exists_toOutput_iff {o : Output} (hahead : o.ahead = []) :
    (∃ report o', toOutput sealer unit blockSize o = (.ok report, o')) ↔
      Fits sealer unit ∧ o.accepts (effort sealer unit) = effort sealer unit := by
  obtain ⟨outcome, o₁, htakes, heq⟩ := toOutput_eq sealer unit blockSize o
  rw [heq]
  cases outcome with
  | error fault =>
      refine iff_of_false (fun ⟨_, _, h⟩ => nomatch (Prod.mk.inj h).1) fun ⟨_, hall⟩ => ?_
      have hless := htakes.of_error.2
      rw [effort, Output.accepts_of_lt hless (Nat.le_add_right _ _)] at hall
      omega
  | ok done =>
      have hext := htakes.extended_of_ok
      have hsum : _ = o.accepts (effort sealer unit) :=
        Output.accepts_of_extended hext htakes.accepts_of_ok.ge (headLength sealer)
      rw [← hsum, effort, Nat.add_left_cancel_iff]
      constructor
      · rintro ⟨report, o', h⟩
        exact fits_of_finish sealer unit hahead hext h
      · rintro ⟨hfits, hroom⟩
        obtain ⟨o', hfinish, -⟩ := finish_of_room sealer unit hahead hext hfits hroom
        exact ⟨_, o', hfinish⟩

theorem artifact_of_toOutput {o o' : Output} {report : DumpReport} (hahead : o.ahead = [])
    (h : toOutput sealer unit blockSize o = (.ok report, o')) :
    report = reportOf sealer unit ∧ o'.contents = o.contents ++ artifact sealer unit := by
  obtain ⟨outcome, o₁, htakes, heq⟩ := toOutput_eq sealer unit blockSize o
  rw [heq] at h
  cases outcome with
  | error fault => cases (Prod.mk.inj h).1
  | ok done =>
      have hext := htakes.extended_of_ok
      obtain ⟨hfits, hroom⟩ := fits_of_finish sealer unit hahead hext h
      obtain ⟨o₂, hfinish, hcontents⟩ := finish_of_room sealer unit hahead hext hfits hroom
      obtain ⟨hreport, rfl⟩ := Prod.mk.inj (h.symm.trans hfinish)
      exact ⟨Except.ok.inj hreport, hcontents⟩

theorem toBytes_eq (hlength : unit.toBytes.length < UInt32.size) :
    toBytes sealer unit blockSize = .ok (artifact sealer unit, reportOf sealer unit) := by
  obtain ⟨report, o', hout⟩ := (exists_toOutput_iff sealer unit blockSize (o := {}) rfl).mpr
    ⟨fun _ => hlength, rfl⟩
  obtain ⟨rfl, hcontents⟩ := artifact_of_toOutput sealer unit blockSize rfl hout
  rw [toBytes, hout]
  exact congrArg (fun bytes => Except.ok (bytes, reportOf sealer unit)) hcontents

/-- A dump to a file succeeds exactly if its header fits and the file can be
created, takes all that is written and is closed, and then leaves the artifact
in it. -/
theorem toFile_ok_iff {disk disk' : Disk} {path : String} {report : DumpReport} :
    toFile sealer unit blockSize disk path = (.ok report, disk') ↔
      Fits sealer unit ∧ ∃ (location : Location) (opened : Disk),
        disk.create path = .ok (location, opened) ∧
          opened.Admits location (effort sealer unit) ∧ report = reportOf sealer unit ∧
          disk' = opened.store location (artifact sealer unit) := by
  unfold toFile
  constructor
  · intro h
    split at h
    · cases (Prod.mk.inj h).1
    · rename_i location opened hcreate
      cases hout : toOutput sealer unit blockSize (opened.output location) with
      | mk outcome o' =>
          simp only [hout] at h
          split at h
          · cases (Prod.mk.inj h).1
          · cases (Prod.mk.inj h).1
          · rename_i written hclosing
            obtain ⟨hreport, rfl⟩ := Prod.mk.inj h
            obtain rfl := Except.ok.inj hreport
            obtain ⟨hfits, hall⟩ :=
              (exists_toOutput_iff sealer unit blockSize rfl).mp ⟨_, _, hout⟩
            obtain ⟨rfl, hcontents⟩ := artifact_of_toOutput sealer unit blockSize rfl hout
            exact ⟨hfits, location, opened, hcreate,
              ⟨Disk.accepts_output_eq_iff.mp hall, hclosing⟩, rfl,
              congrArg (opened.store location) hcontents⟩
  · rintro ⟨hfits, location, opened, hcreate, ⟨hroom, hclosing⟩, rfl, rfl⟩
    obtain ⟨report, o', hout⟩ := (exists_toOutput_iff sealer unit blockSize rfl).mpr
      ⟨hfits, Disk.accepts_output_eq_iff.mpr hroom⟩
    obtain ⟨rfl, hcontents⟩ := artifact_of_toOutput sealer unit blockSize rfl hout
    simp only [hcreate, hout, Disk.limits_store, hclosing, hcontents]
    rfl

theorem toFile_isOk_iff {disk : Disk} {path : String} :
    (∃ report, (toFile sealer unit blockSize disk path).1 = .ok report) ↔
      Fits sealer unit ∧ ∃ location, disk.target path = .ok location ∧
        disk.Admits location (effort sealer unit) := by
  constructor
  · rintro ⟨report, hok⟩
    obtain ⟨hfits, location, opened, hcreate, hadmits, -, -⟩ :=
      (toFile_ok_iff sealer unit blockSize).mp (Prod.ext hok rfl)
    obtain ⟨htarget, rfl⟩ := Disk.create_eq_ok_iff.mp hcreate
    exact ⟨hfits, location, htarget, hadmits⟩
  · rintro ⟨hfits, location, htarget, hadmits⟩
    exact ⟨_, congrArg Prod.fst ((toFile_ok_iff sealer unit blockSize).mpr
      ⟨hfits, location, _, Disk.create_eq_ok_iff.mpr ⟨htarget, rfl⟩, hadmits, rfl, rfl⟩)⟩

theorem toFile_eq_ok_iff {disk disk' : Disk} {path : String} {report : DumpReport}
    (hlength : unit.toBytes.length < UInt32.size) :
    toFile sealer unit blockSize disk path = (.ok report, disk') ↔
      ∃ (location : Location) (opened : Disk), disk.create path = .ok (location, opened) ∧
        opened.Admits location (effort sealer unit) ∧ report = reportOf sealer unit ∧
        disk' = opened.store location (artifact sealer unit) :=
  (toFile_ok_iff sealer unit blockSize).trans (and_iff_right fun _ => hlength)

/-! ## Every dump of a module is the same -/

/-- A whole dump of a module and what is reported of it: the binary form,
which with protection on is wrapped, so that a header declares its length. -/
structure IsDump (bytes : Bytes) (report : DumpReport) : Prop where
  wrapped : sealer.isProtecting = true → sealer.wrap unit.toBytes = .ok bytes
  plain : sealer.isProtecting = false → bytes = unit.toBytes
  payloadLength : report.payloadLength = unit.toBytes.length
  totalLength : report.totalLength = bytes.length
  isSealed : report.isSealed = sealer.isProtecting
  declared : sealer.isProtecting = true → ∃ e : Envelope, Envelope.parse? bytes = some e ∧
    e.payloadLength.toNat + Envelope.size = report.totalLength

theorem isDump_of_fits (hfits : Fits sealer unit) :
    IsDump sealer unit (artifact sealer unit) (reportOf sealer unit) where
  wrapped := by
    intro hp
    rw [artifact, if_pos hp]
    exact Sealer.wrap_eq_ok_iff.mpr ⟨hp, hfits hp, rfl⟩
  plain := by
    intro hp
    rw [artifact, if_neg (by simp [hp])]
  payloadLength := rfl
  totalLength := by
    unfold artifact reportOf headLength
    cases sealer.isProtecting <;> simp
  isSealed := rfl
  declared := by
    intro hp
    refine ⟨Sealer.header unit.toBytes, ?_, ?_⟩
    · rw [artifact, if_pos hp, Envelope.parse?_toBytes_append]
    · rw [Sealer.payloadLength_header (hfits hp), reportOf, headLength, if_pos hp, Nat.add_comm]

theorem isDump_artifact (hlength : unit.toBytes.length < UInt32.size) :
    IsDump sealer unit (artifact sealer unit) (reportOf sealer unit) :=
  isDump_of_fits sealer unit fun _ => hlength

/-- A module is dumped to the same bytes with every block size, into memory and
to a file, and these are its binary form, wrapped if protection is on.  A file
may have held anything before; it is dumped to if it can be written, takes all
bytes of the dump and those of the header again, and can be closed. -/
theorem dump_is_wrapped_binary_form (hlength : unit.toBytes.length < UInt32.size) :
    ∃ bytes report, IsDump sealer unit bytes report ∧ ∀ blockSize : Nat,
      toBytes sealer unit blockSize = .ok (bytes, report) ∧
      (∀ (disk : Disk) (path : String),
        (∃ disk', toFile sealer unit blockSize disk path = (.ok report, disk')) ↔
          ∃ location, disk.target path = .ok location ∧
            disk.Admits location (effort sealer unit)) ∧
      ∀ (disk disk' : Disk) (path : String) (report' : DumpReport),
        toFile sealer unit blockSize disk path = (.ok report', disk') →
          report' = report ∧ disk'.fileBytes path = .ok bytes := by
  refine ⟨_, _, isDump_artifact sealer unit hlength, fun blockSize =>
    ⟨toBytes_eq sealer unit blockSize hlength, ?_, ?_⟩⟩
  · intro disk path
    constructor
    · rintro ⟨disk', hfile⟩
      exact ((toFile_isOk_iff sealer unit blockSize).mp ⟨_, congrArg Prod.fst hfile⟩).2
    · intro hplace
      obtain ⟨report, hok⟩ :=
        (toFile_isOk_iff sealer unit blockSize).mpr ⟨fun _ => hlength, hplace⟩
      obtain ⟨-, -, -, -, -, rfl, -⟩ :=
        (toFile_ok_iff sealer unit blockSize).mp (Prod.ext hok rfl)
      exact ⟨_, Prod.ext hok rfl⟩
  · intro disk disk' path report' hfile
    obtain ⟨location, opened, hcreate, -, rfl, rfl⟩ :=
      (toFile_eq_ok_iff sealer unit blockSize hlength).mp hfile
    exact ⟨rfl, Disk.fileBytes_store hcreate _⟩

/-- A module that raises an error, dumped sealed over a longer file in blocks of
three bytes and into memory in blocks of a thousand; but not where there is only
room for the dump and not for its header again, nor where the file is not
closed. -/
theorem dump_over_a_longer_file :
    let sealer : Sealer := ⟨{}, Substitution.ofKey Sealer.defaultKey, Sealer.defaultSignature⟩
    let unit : CompiledModule := ⟨none, some "no", "m", [0x2D, 0x2D]⟩
    let disk (limit : Limit) : Disk :=
      { Disk.scratch.set ["tmp", "work", "a"] (.file (List.replicate 100 7)) with
        limits := fun _ => limit }
    unit.toBytes.length < UInt32.size ∧ (disk {}).fileBytes "a" = .ok (List.replicate 100 7) ∧
      (∃ bytes report disk', IsDump sealer unit bytes report ∧
        toBytes sealer unit 1000 = .ok (bytes, report) ∧
        toFile sealer unit 3 (disk {}) "a" = (.ok report, disk') ∧
        disk'.fileBytes "a" = .ok bytes) ∧
      ∀ limit ∈ [({ room := some 46 } : Limit), { closing := some (.other "no") }],
        ∀ report disk', toFile sealer unit 3 (disk limit) "a" ≠ (.ok report, disk') := by
  intro sealer unit disk
  have hcount : unit.toBytes.length = 23 := by
    rw [CompiledModule.toBytes_eq_written]
    decide
  have hlength : unit.toBytes.length < UInt32.size := by
    rw [hcount]
    decide
  have htarget (limit : Limit) : (disk limit).target "a" = .ok ["tmp", "work", "a"] := by rfl
  obtain ⟨bytes, report, hdump, hall⟩ := dump_is_wrapped_binary_form sealer unit hlength
  obtain ⟨hmemory, -, -⟩ := hall 1000
  obtain ⟨-, hfile, hleaves⟩ := hall 3
  obtain ⟨disk', hok⟩ := (hfile (disk {}) "a").mpr
    ⟨_, htarget {}, Disk.admits_of_limits_eq rfl _⟩
  refine ⟨hlength, rfl, ⟨bytes, report, disk', hdump, hmemory, hok, (hleaves _ _ _ _ hok).2⟩, ?_⟩
  intro limit hlimit written left hwritten
  obtain ⟨rfl, -⟩ := hleaves _ _ _ _ hwritten
  obtain ⟨location, hlocation, hroom, hclosing⟩ := (hfile (disk limit) "a").mp ⟨left, hwritten⟩
  rcases List.mem_pair.mp hlimit with rfl | rfl
  · have hless := hroom 46 rfl
    rw [effort, length_body, hcount] at hless
    exact absurd hless (by decide)
  · cases hclosing

end Dump

end SealedModules
