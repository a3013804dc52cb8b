/-
# A broken dump is not taken for a sealed module

A sealed dump is written in two goes, the placeholder with the payload and then
the header over the placeholder.  An output that stops taking bytes cuts it
short somewhere, and `toOutput_of_protecting` says what is left then, for every
number of bytes taken: a start of the first go, or the payload behind a start
of the header and the rest of the zeros.

A start of the first go begins with a zero and opens like no envelope.  A start
of the header may well do: the magic ends in a zero itself, and what is missing
of the length are zeros too.  Which of these states look like a header is
not decided here.  What is told to be sealed has the one header that its length
calls for (`Sealer.eq_header_append`), and behind it stands the whole payload;
so whatever of these is told to be sealed is the whole artifact.
-/
import SealedModules.Proofs.Artifact

namespace SealedModules

theorem Sealer.eq_header_append {s : Sealer} {bytes : Bytes}
    (h : s.classifyWhole bytes = .sealedModule) :
    bytes = (header (bytes.drop Envelope.size)).toBytes ++ bytes.drop Envelope.size := by
  obtain ⟨-, e, hparse, hmatches⟩ := classify_eq_sealedModule_iff.mp h
  rw [Envelope.parse?_take_size] at hparse
  have hlength : e.payloadLength.toNat = (bytes.drop Envelope.size).length := by
    rw [List.length_drop, Envelope.matchesLength_iff.mp hmatches, Nat.add_sub_cancel_left]
  rw [header_eq_of_length hlength]
  exact Envelope.parse?_eq_some_iff.mp hparse

namespace Dump

variable {sealer : Sealer} (unit : CompiledModule) (blockSize : Nat)

/-- What is left when `count` bytes of the header were put over the placeholder. -/
def patched (sealer : Sealer) (unit : CompiledModule) (count : Nat) : Bytes :=
  (Sealer.header unit.toBytes).toBytes.take count ++ (body sealer unit).drop count

/-- A dump to an empty output, by the number of bytes that the output takes in
all. -/
theorem toOutput_of_protecting (hp : sealer.isProtecting = true)
    (hlength : unit.toBytes.length < UInt32.size) {o : Output} (hempty : o.contents = []) :
    let written := (body sealer unit).length
    let taken := o.accepts (written + Envelope.size)
    ∃ o', toOutput sealer unit blockSize o =
        (if taken = written + Envelope.size then .ok (reportOf sealer unit)
          else .error (if taken < written then .writing else .rewriting, o.refusal), o') ∧
      o'.contents =
        if taken < written then (body sealer unit).take taken
        else patched sealer unit (taken - written) := by
  intro written taken
  have hahead : o.ahead = [] := (List.append_eq_nil_iff.mp hempty).2
  obtain ⟨outcome, o₁, htakes, heq⟩ := toOutput_eq sealer unit blockSize o
  have houtcome : outcome = if o.accepts written = written then .ok () else .error o.refusal :=
    htakes.outcome
  rw [heq]
  by_cases hall : o.accepts written = written
  · -- the placeholder and the payload fit, and the rest of the room is for the header
    rw [if_pos hall] at houtcome
    subst houtcome
    have hext := htakes.extended_of_ok
    have hsum : written + o₁.accepts Envelope.size = taken :=
      Output.accepts_of_extended hext hall.ge Envelope.size
    obtain ⟨o', hfinish, hresult⟩ := finish_of_protecting unit hp hahead hext hlength
    refine ⟨o', ?_, ?_⟩
    · have hsome : ¬ taken < written := by omega
      have hiff : o₁.accepts Envelope.size = Envelope.size ↔
          taken = written + Envelope.size := by omega
      simp only [hfinish, hiff, hext.refusal, if_neg hsome]
    · rw [hresult, hempty, List.nil_append, if_neg (by omega), patched,
        show taken - written = o₁.accepts Envelope.size by omega]
  · -- they do not, and the header is not reached
    have hless : o.accepts written < written := Nat.lt_of_le_of_ne (o.accepts_le _) hall
    have hsame : taken = o.accepts written := Output.accepts_of_lt hless (by omega)
    rw [if_neg hall] at houtcome
    subst houtcome
    refine ⟨o₁, ?_, ?_⟩
    · rw [if_neg (by omega), if_pos (by omega)]
    · rw [if_pos (by omega), htakes.extended.contents_of_contents_eq_nil hempty, hsame]

theorem toOutput_of_too_large (hp : sealer.isProtecting = true)
    (hlength : ¬ unit.toBytes.length < UInt32.size) {o : Output} (hempty : o.contents = []) :
    ∃ failure o', toOutput sealer unit blockSize o = (.error failure, o') ∧
      o'.contents = (body sealer unit).take (o.accepts (body sealer unit).length) := by
  obtain ⟨outcome, o₁, htakes, heq⟩ := toOutput_eq sealer unit blockSize o
  have hcontents := htakes.extended.contents_of_contents_eq_nil hempty
  cases outcome with
  | error fault => exact ⟨_, o₁, heq, hcontents⟩
  | ok _ =>
      have hfinish := finish_of_too_large unit hp htakes.extended_of_ok hlength
      exact ⟨_, o₁, heq.trans hfinish, hcontents⟩

/-! ## What is left is not sealed, or whole -/

/-- The placeholder opens like no envelope, wherever it or what follows it is
cut off. -/
theorem not_sealed_of_take_body (hp : sealer.isProtecting = true) (count : Nat) :
    sealer.classifyWhole ((body sealer unit).take count) ≠ .sealedModule := by
  intro hsealed
  have hmagic : ((body sealer unit).take count).head? = Envelope.magic.head? := by
    rw [Sealer.eq_header_append hsealed]
    rfl
  have hzero : (body sealer unit).head? = some 0 := by
    rw [body, placeholder, headLength, if_pos hp]
    rfl
  rw [List.head?_take, hzero] at hmagic
  split at hmagic
  · cases hmagic
  · exact absurd hmagic (by decide)

/-- A header that was begun over the placeholder is whole if it is taken for
one. -/
theorem patched_eq_artifact (hp : sealer.isProtecting = true) {count : Nat}
    (hcount : count ≤ Envelope.size)
    (hsealed : sealer.classifyWhole (patched sealer unit count) = .sealedModule) :
    patched sealer unit count = artifact sealer unit := by
  have hhead : ((Sealer.header unit.toBytes).toBytes.take count).length = count := by
    rw [List.length_take, Envelope.length_toBytes, Nat.min_eq_left hcount]
  -- behind the header stands the payload, so the header it calls for is that of the payload
  have hpayload : (patched sealer unit count).drop Envelope.size = sealer.encode unit.toBytes := by
    rw [patched, List.drop_append, hhead, List.drop_eq_nil_of_le (by omega), List.nil_append,
      List.drop_drop, Nat.add_sub_cancel' hcount, drop_size_body sealer unit hp]
  have hheader : Sealer.header (sealer.encode unit.toBytes) = Sealer.header unit.toBytes := by
    rw [Sealer.header, Sealer.header, Sealer.length_encode]
  have hwhole := Sealer.eq_header_append hsealed
  rw [hpayload, hheader] at hwhole
  rw [hwhole, artifact, if_pos hp]

section
variable (hp : sealer.isProtecting = true) {o : Output} (hempty : o.contents = [])
include hp hempty

theorem wrap_eq_of_sealed
    (hsealed : sealer.classifyWhole (toOutput sealer unit blockSize o).2.contents =
      .sealedModule) :
    sealer.wrap unit.toBytes = .ok (toOutput sealer unit blockSize o).2.contents := by
  by_cases hlength : unit.toBytes.length < UInt32.size
  · have hwrap := (isDump_artifact sealer unit hlength).wrapped hp
    obtain ⟨o', hresult, hleft⟩ := toOutput_of_protecting unit blockSize hp hlength hempty
    have hle := o.accepts_le ((body sealer unit).length + Envelope.size)
    rw [hresult, hleft] at hsealed ⊢
    by_cases hcut : o.accepts ((body sealer unit).length + Envelope.size) <
        (body sealer unit).length
    · rw [if_pos hcut] at hsealed
      exact absurd hsealed (not_sealed_of_take_body unit hp _)
    · rw [if_neg hcut] at hsealed ⊢
      rw [patched_eq_artifact unit hp (by omega) hsealed, hwrap]
  · obtain ⟨failure, o', hresult, hleft⟩ :=
      toOutput_of_too_large unit blockSize hp hlength hempty
    rw [hresult, hleft] at hsealed
    exact absurd hsealed (not_sealed_of_take_body unit hp _)

theorem wrap_eq_of_ok {report : DumpReport}
    (hok : (toOutput sealer unit blockSize o).1 = .ok report) :
    sealer.wrap unit.toBytes = .ok (toOutput sealer unit blockSize o).2.contents := by
  have hahead : o.ahead = [] := (List.append_eq_nil_iff.mp hempty).2
  have hout : toOutput sealer unit blockSize o = (.ok report, _) := Prod.ext hok rfl
  obtain ⟨hfits, -⟩ := (exists_toOutput_iff sealer unit blockSize hahead).mp ⟨report, _, hout⟩
  obtain ⟨-, hcontents⟩ := artifact_of_toOutput sealer unit blockSize hahead hout
  rw [hcontents, hempty, List.nil_append]
  exact (isDump_of_fits sealer unit hfits).wrapped hp

theorem toOutput_ok_of_room (hlength : unit.toBytes.length < UInt32.size)
    (hroom : ∀ room, o.room = some room → 2 * Envelope.size + unit.toBytes.length ≤ room) :
    ∃ report, (toOutput sealer unit blockSize o).1 = .ok report := by
  have hahead : o.ahead = [] := (List.append_eq_nil_iff.mp hempty).2
  have hall : o.accepts (effort sealer unit) = effort sealer unit := by
    refine Output.accepts_eq_iff.mpr fun room hbound => ?_
    have hle := hroom room hbound
    rw [effort, length_body, headLength, if_pos hp]
    omega
  obtain ⟨report, o', hout⟩ :=
    (exists_toOutput_iff sealer unit blockSize hahead).mpr ⟨fun _ => hlength, hall⟩
  exact ⟨report, congrArg Prod.fst hout⟩

end

/-- Wherever a sealed dump breaks off, what it leaves is not told to be sealed
unless it is the whole wrapped module.  A dump that succeeds leaves that, and it
succeeds if there is room for the module and then for its header again. -/
theorem broken_dump_is_not_sealed (hp : sealer.isProtecting = true) (room : Option Nat)
    (refusal : Fault) :
    let result := toOutput sealer unit blockSize { room, refusal }
    let left := result.2.contents
    (sealer.classify (left.take Envelope.size) left.length ≠ .sealedModule ∨
        sealer.wrap unit.toBytes = .ok left) ∧
      (∀ report, result.1 = .ok report → sealer.wrap unit.toBytes = .ok left) ∧
      (unit.toBytes.length < UInt32.size →
        (∀ bound, room = some bound → 2 * Envelope.size + unit.toBytes.length ≤ bound) →
          ∃ report, result.1 = .ok report) := by
  intro result left
  refine ⟨?_, fun report hok => wrap_eq_of_ok unit blockSize hp rfl hok,
    fun hlength hroom => toOutput_ok_of_room unit blockSize hp rfl hlength hroom⟩
  refine Decidable.or_iff_not_imp_left.mpr fun hsealed => ?_
  exact wrap_eq_of_sealed unit blockSize hp rfl (Decidable.not_not.mp hsealed)

/-- A module of 27 bytes, dumped where there is room for nine bytes of its
header: the dump fails after the only byte of the length that is not zero.  With
room for all twelve it succeeds. -/
theorem dump_breaks_off_in_its_header :
    let sealer : Sealer := ⟨{}, Substitution.ofKey Sealer.defaultKey, Sealer.defaultSignature⟩
    let unit : CompiledModule := ⟨some 7, none, "m", []⟩
    let broken := toOutput sealer unit 4 { room := some 48, refusal := .noSpace }
    let whole := toOutput sealer unit 4 { room := some 51, refusal := .noSpace }
    sealer.isProtecting = true ∧ unit.toBytes.length < UInt32.size ∧
      broken.1 = .error (.rewriting, .noSpace) ∧
      (sealer.classify (broken.2.contents.take Envelope.size) broken.2.contents.length ≠
          .sealedModule ∨ sealer.wrap unit.toBytes = .ok broken.2.contents) ∧
      ∃ report, whole.1 = .ok report ∧ sealer.wrap unit.toBytes = .ok whole.2.contents := by
  intro sealer unit broken whole
  have hp : sealer.isProtecting = true := rfl
  have hcount : unit.toBytes.length = 27 := by
    rw [CompiledModule.toBytes_eq_written]
    decide
  have hlength : unit.toBytes.length < UInt32.size := by
    rw [hcount]
    decide
  have hfails : broken.1 = .error (.rewriting, .noSpace) := by
    obtain ⟨o', hbroken, -⟩ := toOutput_of_protecting unit 4 hp hlength
      (o := { room := some 48, refusal := .noSpace }) rfl
    rw [length_body, headLength, if_pos hp, hcount] at hbroken
    exact congrArg Prod.fst hbroken
  obtain ⟨-, hwhole, hroom⟩ := broken_dump_is_not_sealed unit 4 hp (some 51) .noSpace
  obtain ⟨report, hok⟩ := hroom hlength fun bound hbound => by
    obtain rfl := Option.some.inj hbound
    rw [hcount]
    decide
  exact ⟨hp, hlength, hfails, (broken_dump_is_not_sealed unit 4 hp (some 48) .noSpace).1,
    report, hok, hwhole report hok⟩

end Dump

end SealedModules
