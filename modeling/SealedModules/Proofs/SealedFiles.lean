/-
# Sealing and unsealing files by name

Sealing a file and unsealing it are told by the bytes of the input alone: what
already is an envelope from its first byte to its last (`Encloses`) is not
sealed again, and nothing else is unsealed.  What then fails is the writing,
and a path that could be written before either command still can
(`Writable.after_write`).  So each command undoes the other, in place as well,
and the flags of the settings have no say in it, as both work with protection
on.

The output is looked at only once there is something to be written.  So a
command that fails because of its input leaves the disk as it was.  It is not so
when the output is too small: an existing file is emptied before it is written,
and keeps as much as there is room for (`CutShort`).
-/
import SealedModules.Command.Wrap
import SealedModules.Proofs.Alike
import SealedModules.Proofs.Wrapping

namespace SealedModules

/-! ## Whole envelopes -/

/-- The bytes are a header and the payload it declares, and nothing more. -/
def Envelope.Encloses (bytes : Bytes) : Prop :=
  Opens bytes ∧ bytes.length = size + declared bytes

instance (bytes : Bytes) : Decidable (Envelope.Encloses bytes) :=
  inferInstanceAs (Decidable ((_ ∧ _) ∧ _))

namespace Sealer

variable {s : Sealer}

theorem classifyWhole_eq_sealedModule_iff (hp : s.isProtecting = true) {bytes : Bytes} :
    s.classifyWhole bytes = .sealedModule ↔ Envelope.Encloses bytes := by
  rw [classifyWhole, classify_eq_sealedModule_iff, Envelope.parse?_take_size]
  constructor
  · rintro ⟨-, e, he, hm⟩
    refine ⟨Envelope.opens_of_parse? he, ?_⟩
    rw [← Envelope.payloadLength_of_parse? he]
    exact Envelope.matchesLength_iff.mp hm
  · rintro ⟨hopens, hlength⟩
    have he := Envelope.parse?_of_opens hopens
    refine ⟨hp, _, he, Envelope.matchesLength_iff.mpr ?_⟩
    rw [Envelope.payloadLength_of_parse? he]
    exact hlength

theorem encloses_iff_exists_unwrap (hp : s.isProtecting = true) {bytes : Bytes} :
    Envelope.Encloses bytes ↔ ∃ payload, s.unwrap bytes = .ok payload := by
  rw [← classifyWhole_eq_sealedModule_iff hp, unwrap_isOk_iff]

theorem length_of_wrap {payload bytes : Bytes} (h : s.wrap payload = .ok bytes) :
    bytes.length = Envelope.size + payload.length := by
  obtain ⟨-, -, rfl⟩ := wrap_eq_ok_iff.mp h
  rw [List.length_append, Envelope.length_toBytes, length_encode]

theorem length_of_unwrap {payload bytes : Bytes} (h : s.unwrap bytes = .ok payload) :
    payload.length = bytes.length - Envelope.size := by
  obtain ⟨-, e, -, -, rfl⟩ := unwrap_eq_ok_iff.mp h
  rw [length_decode, List.length_drop]

end Sealer

theorem Settings.unwrap_sealingSealer {settings settings' : Settings}
    (h : settings'.cipher = settings.cipher) (bytes : Bytes) :
    settings'.sealingSealer.unwrap bytes = settings.sealingSealer.unwrap bytes := by
  simp only [Settings.sealingSealer, Sealer.unwrap, Sealer.decode, Sealer.isProtecting, h]

/-! ## Paths that can be written -/

namespace Disk

/-- What a write leaves that there is not enough room for: as much as there is. -/
def CutShort (d : Disk) (path : String) (contents : Bytes) (after : Disk) : Prop :=
  ∃ (location : Location) (room : Nat), d.target path = .ok location ∧
    d.room location = some room ∧ room < contents.length ∧
      after = d.set location (.file (contents.take room))

section
variable {d after : Disk} {path : String} {contents : Bytes}

theorem fileBytes_of_write (h : d.writeFile path contents = (.ok (), after)) :
    after.fileBytes path = .ok contents := by
  obtain ⟨location, htarget, rfl⟩ := disk_of_write h
  have hstore := fileBytes_store (create_eq_ok_iff.mpr ⟨htarget, rfl⟩) contents
  rwa [store, set_set] at hstore

theorem Writable.after_write {other : String} {count : Nat} (hother : d.Writable other count)
    (h : d.writeFile path contents = (.ok (), after)) : after.Writable other count := by
  obtain ⟨location, htarget, rfl⟩ := disk_of_write h
  obtain ⟨place, hplace, hroom⟩ := hother
  have hstill := (target_eq_ok_iff.mp htarget).targeted_set (target_eq_ok_iff.mp hplace) contents
  exact ⟨place, target_eq_ok_iff.mpr hstill, hroom⟩

theorem cutShort_of_write_error {fault : Fault}
    (h : d.writeFile path contents = (.error fault, after)) :
    after = d ∨ d.CutShort path contents after := by
  have hwrote := d.writeFile_wrote path contents
  rw [h] at hwrote
  cases hwrote with
  | refused => exact .inl rfl
  | cut htarget hroom hless => exact .inr ⟨_, _, htarget, hroom, hless, rfl⟩

end

end Disk

/-! ## The commands -/

namespace Command

section
variable {disk : Disk} {verb input output : String} {result : Bytes}

/-- The run succeeded, and left the bytes in the file. -/
def Leaves (run : CommandRun) (path : String) (bytes : Bytes) : Prop :=
  run.outcome = .ok () ∧ run.disk.fileBytes path = .ok bytes

theorem deliver_isOk_iff : (deliver disk verb input output result).outcome = .ok () ↔
    disk.Writable output result.length := by
  rw [← Disk.writeFile_isOk_iff, deliver]
  split
  · rename_i fault after hwrite
    rw [hwrite]
    exact iff_of_false (fun h => nomatch h) fun h => nomatch h
  · rename_i after hwrite
    rw [hwrite]
    exact iff_of_true rfl rfl

/-- A result is delivered where it can be written; other paths are still
written as before. -/
theorem deliver_of_writable (h : disk.Writable output result.length) (verb input : String) :
    let run := deliver disk verb input output result
    Leaves run output result ∧
      ∀ other count, disk.Writable other count → run.disk.Writable other count := by
  intro run
  obtain ⟨after, hwrite⟩ : ∃ after, disk.writeFile output result = (.ok (), after) :=
    ⟨_, Prod.ext (Disk.writeFile_isOk_iff.mpr h) rfl⟩
  simp only [run, deliver, hwrite]
  exact ⟨⟨rfl, Disk.fileBytes_of_write hwrite⟩, fun other count hother => hother.after_write hwrite⟩

theorem cutShort_of_deliver_error {error : CommandError}
    (h : (deliver disk verb input output result).outcome = .error error) :
    (deliver disk verb input output result).disk = disk ∨
      disk.CutShort output result (deliver disk verb input output result).disk := by
  unfold deliver at h ⊢
  split at h
  · rename_i fault after hwrite
    exact Disk.cutShort_of_write_error hwrite
  · cases h

end

section
variable {settings : Settings} {disk : Disk} {input output : String} {bytes : Bytes}

theorem isProtecting_sealingSealer (settings : Settings) :
    settings.sealingSealer.isProtecting = true := rfl

theorem invertible_sealingSealer (settings : Settings) :
    settings.sealingSealer.cipher.Invertible :=
  Substitution.invertible_ofKey _

theorem sealFile_of_encloses (hread : disk.fileBytes input = .ok bytes)
    (h : Envelope.Encloses bytes) (settings : Settings) (output : String) :
    sealFile settings input output disk =
      .failed disk { message := s!"'{input}' is already sealed" } := by
  have hsealed := (Sealer.classifyWhole_eq_sealedModule_iff
    (isProtecting_sealingSealer settings)).mpr h
  unfold sealFile
  rw [hread]
  exact if_pos hsealed

theorem sealFile_of_not_encloses (hread : disk.fileBytes input = .ok bytes)
    (h : ¬ Envelope.Encloses bytes) (settings : Settings) (output : String) :
    sealFile settings input output disk =
      match settings.sealingSealer.wrap bytes with
      | .error error => .failed disk { message := error.message }
      | .ok result => deliver disk "Sealed" input output result := by
  have hplain : ¬ settings.sealingSealer.classifyWhole bytes = .sealedModule := fun hsealed =>
    h ((Sealer.classifyWhole_eq_sealedModule_iff (isProtecting_sealingSealer settings)).mp hsealed)
  unfold sealFile
  rw [hread]
  exact if_neg hplain

theorem exists_wrap (settings : Settings) (h : bytes.length < UInt32.size) :
    ∃ result, settings.sealingSealer.wrap bytes = .ok result :=
  ⟨_, Sealer.wrap_eq_ok_iff.mpr ⟨rfl, h, rfl⟩⟩

theorem wrap_of_sealFile (hread : disk.fileBytes input = .ok bytes)
    (h : (sealFile settings input output disk).outcome = .ok ()) :
    ¬ Envelope.Encloses bytes ∧ ∃ result, settings.sealingSealer.wrap bytes = .ok result ∧
      disk.Writable output result.length ∧
      sealFile settings input output disk = deliver disk "Sealed" input output result := by
  have hnot : ¬ Envelope.Encloses bytes := by
    intro hencloses
    rw [sealFile_of_encloses hread hencloses] at h
    cases h
  have hrun := sealFile_of_not_encloses hread hnot settings output
  cases hwrap : settings.sealingSealer.wrap bytes with
  | error error =>
      rw [hrun, hwrap] at h
      cases h
  | ok result =>
      simp only [hwrap] at hrun
      rw [hrun] at h
      exact ⟨hnot, result, rfl, deliver_isOk_iff.mp h, hrun⟩

/-- A file is sealed if its bytes are no envelope yet and the output can be
written. -/
theorem sealFile_isOk_iff (hread : disk.fileBytes input = .ok bytes)
    (hlength : bytes.length < UInt32.size) :
    (sealFile settings input output disk).outcome = .ok () ↔
      ¬ Envelope.Encloses bytes ∧ disk.Writable output (Envelope.size + bytes.length) := by
  constructor
  · intro h
    obtain ⟨hnot, result, hwrap, hwritable, -⟩ := wrap_of_sealFile hread h
    exact ⟨hnot, Sealer.length_of_wrap hwrap ▸ hwritable⟩
  · rintro ⟨hnot, hwritable⟩
    obtain ⟨result, hwrap⟩ := exists_wrap settings hlength
    rw [← Sealer.length_of_wrap hwrap] at hwritable
    rw [sealFile_of_not_encloses hread hnot, hwrap]
    exact deliver_isOk_iff.mpr hwritable

theorem unsealFile_of_unwrap {plain : Bytes} (hread : disk.fileBytes input = .ok bytes)
    (h : settings.sealingSealer.unwrap bytes = .ok plain) (output : String) :
    unsealFile settings input output disk = deliver disk "Unsealed" input output plain := by
  simp only [unsealFile, hread, h]

/-- What is no envelope is not unsealed, and the error says what is wrong with
its header. -/
theorem unsealFile_of_not_encloses (hread : disk.fileBytes input = .ok bytes)
    (h : ¬ Envelope.Encloses bytes) (settings : Settings) (output : String) :
    ∃ error : SealError, unsealFile settings input output disk =
        .failed disk (.because s!"cannot unseal '{input}'" error.message) ∧
      (¬ Envelope.Opens bytes ∧ error = .notSealed ∨
        Envelope.Opens bytes ∧ error =
          .lengthMismatch (Envelope.declared bytes) (bytes.length - Envelope.size)) := by
  have hp := isProtecting_sealingSealer settings
  cases hunwrap : settings.sealingSealer.unwrap bytes with
  | ok plain => exact absurd ((Sealer.encloses_iff_exists_unwrap hp).mpr ⟨plain, hunwrap⟩) h
  | error error =>
      refine ⟨error, by simp only [unsealFile, hread, hunwrap], ?_⟩
      by_cases hopens : Envelope.Opens bytes
      · exact .inr ⟨hopens, (Sealer.unwrap_eq_error hp hunwrap hopens).1⟩
      · rw [(Sealer.unwrap_eq_notSealed_iff hp).mpr hopens] at hunwrap
        exact .inl ⟨hopens, (Except.error.inj hunwrap).symm⟩

theorem unsealFile_isOk_iff (hread : disk.fileBytes input = .ok bytes) :
    (unsealFile settings input output disk).outcome = .ok () ↔
      Envelope.Encloses bytes ∧ disk.Writable output (bytes.length - Envelope.size) := by
  by_cases hencloses : Envelope.Encloses bytes
  · obtain ⟨plain, hunwrap⟩ :=
      (Sealer.encloses_iff_exists_unwrap (isProtecting_sealingSealer settings)).mp hencloses
    rw [unsealFile_of_unwrap hread hunwrap, deliver_isOk_iff, Sealer.length_of_unwrap hunwrap]
    exact (and_iff_right hencloses).symm
  · obtain ⟨error, hrun, -⟩ := unsealFile_of_not_encloses hread hencloses settings output
    rw [hrun]
    exact iff_of_false (fun h => nomatch h) fun h => hencloses h.1

theorem unsealFile_of_sealFile {unsealing : Settings} (hkey : unsealing.cipher = settings.cipher)
    (hread : disk.fileBytes input = .ok bytes)
    (h : (sealFile settings input output disk).outcome = .ok ()) {restored : String}
    (hrestored : disk.Writable restored bytes.length) :
    Leaves (unsealFile unsealing output restored (sealFile settings input output disk).disk)
      restored bytes := by
  obtain ⟨-, result, hwrap, hwritable, hrun⟩ := wrap_of_sealFile hread h
  obtain ⟨⟨-, hresult⟩, hkept⟩ := deliver_of_writable hwritable "Sealed" input
  have hunwrap : unsealing.sealingSealer.unwrap result = .ok bytes := by
    rw [Settings.unwrap_sealingSealer hkey]
    exact (Sealer.unwrap_eq_ok_iff_wrap (invertible_sealingSealer settings)).mpr hwrap
  rw [hrun, unsealFile_of_unwrap hresult hunwrap]
  exact (deliver_of_writable (hkept restored _ hrestored) "Unsealed" output).1

theorem sealFile_of_unsealFile {unsealing : Settings} (hkey : unsealing.cipher = settings.cipher)
    (hread : disk.fileBytes input = .ok bytes) (hencloses : Envelope.Encloses bytes)
    (hwritable : disk.Writable output (bytes.length - Envelope.size)) :
    ∃ plain, Leaves (unsealFile unsealing input output disk) output plain ∧
      (¬ Envelope.Encloses plain → ∀ again, disk.Writable again bytes.length →
        Leaves (sealFile settings output again (unsealFile unsealing input output disk).disk)
          again bytes) := by
  obtain ⟨plain, hunwrap⟩ :=
    (Sealer.encloses_iff_exists_unwrap (isProtecting_sealingSealer unsealing)).mp hencloses
  rw [← Sealer.length_of_unwrap hunwrap] at hwritable
  obtain ⟨hleaves, hkept⟩ := deliver_of_writable hwritable "Unsealed" input
  have hwrap : settings.sealingSealer.wrap plain = .ok bytes := by
    rw [Settings.unwrap_sealingSealer hkey] at hunwrap
    exact (Sealer.unwrap_eq_ok_iff_wrap (invertible_sealingSealer settings)).mp hunwrap
  rw [unsealFile_of_unwrap hread hunwrap]
  refine ⟨plain, hleaves, fun hplain again hagain => ?_⟩
  rw [sealFile_of_not_encloses hleaves.2 hplain, hwrap]
  exact (deliver_of_writable (hkept again _ hagain) "Sealed" output).1

/-! ## What a failure leaves -/

theorem cutShort_of_sealFile_error {error : CommandError} (hread : disk.fileBytes input = .ok bytes)
    (h : (sealFile settings input output disk).outcome = .error error) :
    (sealFile settings input output disk).disk = disk ∨
      ∃ result, settings.sealingSealer.wrap bytes = .ok result ∧
        disk.CutShort output result (sealFile settings input output disk).disk := by
  by_cases hencloses : Envelope.Encloses bytes
  · rw [sealFile_of_encloses hread hencloses]
    exact .inl rfl
  · rw [sealFile_of_not_encloses hread hencloses] at h ⊢
    cases hwrap : settings.sealingSealer.wrap bytes with
    | error error => exact .inl rfl
    | ok result =>
        rw [hwrap] at h
        exact (cutShort_of_deliver_error h).imp_right fun hcut => ⟨result, rfl, hcut⟩

theorem cutShort_of_unsealFile_error {error : CommandError}
    (hread : disk.fileBytes input = .ok bytes)
    (h : (unsealFile settings input output disk).outcome = .error error) :
    (unsealFile settings input output disk).disk = disk ∨
      ∃ plain, settings.sealingSealer.unwrap bytes = .ok plain ∧
        disk.CutShort output plain (unsealFile settings input output disk).disk := by
  cases hunwrap : settings.sealingSealer.unwrap bytes with
  | error error =>
      simp only [unsealFile, hread, hunwrap]
      exact .inl rfl
  | ok plain =>
      rw [unsealFile_of_unwrap hread hunwrap] at h ⊢
      exact (cutShort_of_deliver_error h).imp_right fun hcut => ⟨plain, rfl, hcut⟩

end

/-! ## The law of sealing files -/

/-- Under any settings with the same key, whatever their flags, and for any two
paths, the same included: an input that cannot be read, is already sealed, or
is not what unsealing takes, fails before anything is written; short enough
bytes that are no envelope are sealed wherever they can be written, and
unsealing the output gives them back; an envelope is unsealed, and sealing what
is in it gives it back unless that is an envelope in turn.  Whatever fails, the
disk is as it was, unless there was something to be written and not room for
all of it. -/
theorem sealing_files_is_undone (sealing unsealing : Settings)
    (hkey : unsealing.cipher = sealing.cipher) (disk : Disk) (input output : String) :
    let toSealed := sealFile sealing input output disk
    let toPlain := unsealFile unsealing input output disk
    (∀ fault, disk.fileBytes input = .error fault →
      toSealed = .failed disk (.ofFault "read" input fault) ∧
        toPlain = .failed disk (.ofFault "read" input fault)) ∧
    ∀ bytes, disk.fileBytes input = .ok bytes →
      (bytes.length < UInt32.size → (toSealed.outcome = .ok () ↔
        ¬ Envelope.Encloses bytes ∧ disk.Writable output (Envelope.size + bytes.length))) ∧
      (toSealed.outcome = .ok () → ∀ restored, disk.Writable restored bytes.length →
        Leaves (unsealFile unsealing output restored toSealed.disk) restored bytes) ∧
      (toPlain.outcome = .ok () ↔
        Envelope.Encloses bytes ∧ disk.Writable output (bytes.length - Envelope.size)) ∧
      (Envelope.Encloses bytes → disk.Writable output (bytes.length - Envelope.size) →
        ∃ plain, Leaves toPlain output plain ∧
          (¬ Envelope.Encloses plain → ∀ again, disk.Writable again bytes.length →
            Leaves (sealFile sealing output again toPlain.disk) again bytes)) ∧
      (Envelope.Encloses bytes →
        toSealed = .failed disk { message := s!"'{input}' is already sealed" }) ∧
      (¬ Envelope.Encloses bytes → ∃ error : SealError,
        toPlain = .failed disk (.because s!"cannot unseal '{input}'" error.message) ∧
          (¬ Envelope.Opens bytes ∧ error = .notSealed ∨
            Envelope.Opens bytes ∧ error =
              .lengthMismatch (Envelope.declared bytes) (bytes.length - Envelope.size))) ∧
      (∀ error, toSealed.outcome = .error error → toSealed.disk = disk ∨
        ∃ result, sealing.sealingSealer.wrap bytes = .ok result ∧
          disk.CutShort output result toSealed.disk) ∧
      ∀ error, toPlain.outcome = .error error → toPlain.disk = disk ∨
        ∃ plain, unsealing.sealingSealer.unwrap bytes = .ok plain ∧
          disk.CutShort output plain toPlain.disk := by
  intro toSealed toPlain
  refine ⟨fun fault hfault => ?_, fun bytes hread => ?_⟩
  · constructor
    · simp only [toSealed, sealFile, hfault]
    · simp only [toPlain, unsealFile, hfault]
  · exact ⟨sealFile_isOk_iff hread, fun h _ => unsealFile_of_sealFile hkey hread h,
      unsealFile_isOk_iff hread, sealFile_of_unsealFile hkey hread,
      fun h => sealFile_of_encloses hread h sealing output,
      fun h => unsealFile_of_not_encloses hread h unsealing output,
      fun error => cutShort_of_sealFile_error hread, fun error => cutShort_of_unsealFile_error hread⟩

/-- Two bytes sealed in place with protection off in the settings and unsealed
in place with protection on, and an envelope unsealed in place and sealed
again. -/
theorem file_is_sealed_in_place :
    let plain : Settings := { flags := ⟨false, true⟩ }
    let disk (bytes : Bytes) : Disk := Disk.scratch.set ["tmp", "work", "a"] (.file bytes)
    let short : Bytes := [1, 2]
    let enclosed : Bytes := Envelope.magic ++ [1, 0, 0, 0, 7]
    ({} : Settings).cipher = plain.cipher ∧
      (∀ bytes count, (disk bytes).fileBytes "a" = .ok bytes ∧ (disk bytes).Writable "a" count) ∧
      short.length < UInt32.size ∧ ¬ Envelope.Encloses short ∧
      (sealFile plain "a" "a" (disk short)).outcome = .ok () ∧
      Leaves (unsealFile {} "a" "a" (sealFile plain "a" "a" (disk short)).disk) "a" short ∧
      Envelope.Encloses enclosed ∧
      ∃ inner, Leaves (unsealFile {} "a" "a" (disk enclosed)) "a" inner := by
  intro plain disk short enclosed
  have hdisk (bytes : Bytes) (count : Nat) :
      (disk bytes).fileBytes "a" = .ok bytes ∧ (disk bytes).Writable "a" count :=
    ⟨rfl, ["tmp", "work", "a"], rfl, Disk.hasRoom_of_room_eq_none rfl count⟩
  have hopen : ¬ Envelope.Encloses short := by decide
  have hlength : short.length < UInt32.size := by decide
  have henclosed : Envelope.Encloses enclosed := by decide
  obtain ⟨-, hbytes⟩ := sealing_files_is_undone plain {} rfl (disk short) "a" "a"
  obtain ⟨hok, hback, -⟩ := hbytes short (hdisk short 0).1
  have hsealed := (hok hlength).mpr ⟨hopen, (hdisk short _).2⟩
  obtain ⟨-, henvelope⟩ := sealing_files_is_undone plain {} rfl (disk enclosed) "a" "a"
  obtain ⟨-, -, -, hplain, -⟩ := henvelope enclosed (hdisk enclosed 0).1
  obtain ⟨inner, hinner, -⟩ := hplain henclosed (hdisk enclosed _).2
  exact ⟨rfl, hdisk, hlength, hopen, hsealed, hback hsealed "a" (hdisk short _).2, henclosed,
    inner, hinner⟩

end Command

end SealedModules
