/-
# Dumped modules load again

A dump is read under the flags in force when it is read, which need not be
those it was made under.  What was dumped sealed opens with the header of its
own payload, and is told to be sealed as long as protection is still on; what
was dumped plain opens with the tag of the binary form, which is not that of
an envelope, whatever the flags are.  Either way the payload that is loaded
is the binary form (`payload_artifact`), and that is read back into the
module it was made from.

Only one change of flags is left out: with protection turned off there are no
sealed modules, and what was dumped sealed is not recognised.
-/
import SealedModules.Proofs.Artifact
import SealedModules.Proofs.BinaryForm
import SealedModules.Proofs.Files
import SealedModules.Proofs.Loading

namespace SealedModules

/-! ## Recognising a dump -/

theorem Envelope.parse?_of_head? {bytes : Bytes} (h : bytes.head? = CompiledModule.tag.head?) :
    parse? bytes = none := by
  refine parse?_eq_none_iff.mpr fun hopens => ?_
  have hhead : bytes.head? = magic.head? := by
    rw [← hopens.2, List.head?_take, if_neg (by decide)]
  rw [h] at hhead
  cases hhead

namespace Dump

section
variable (cipher : Substitution) (hcipher : cipher.Invertible) (signature : UInt8)
  {before after : Flags} {unit : CompiledModule}

/-- A dump is told to be sealed exactly if it was dumped so. -/
theorem contentOf_artifact (hflags : before.protection = true → after.protection = true)
    (hfits : Fits ⟨before, cipher, signature⟩ unit) :
    let bytes := artifact ⟨before, cipher, signature⟩ unit
    StreamFeed.contentOf ⟨after, cipher, signature⟩ bytes bytes.length = .sealedModule ↔
      before.protection = true := by
  intro bytes
  rw [StreamFeed.contentOf_eq_sealedModule_iff]
  cases hp : before.protection with
  | false =>
      have hplain : bytes = unit.toBytes := if_neg (by simp [Sealer.isProtecting, hp])
      have hnone : Envelope.parse? bytes = none :=
        Envelope.parse?_of_head? (hplain ▸ unit.head?_toBytes)
      rw [hnone]
      simp
  | true =>
      have hsealed : bytes = (Sealer.header unit.toBytes).toBytes ++
          Sealer.encode ⟨before, cipher, signature⟩ unit.toBytes := if_pos hp
      refine ⟨fun _ => rfl, fun _ => ⟨hflags hp, Sealer.header unit.toBytes, ?_, ?_⟩⟩
      · rw [hsealed, Envelope.parse?_toBytes_append]
      · rw [Envelope.matchesLength_iff, hsealed, List.length_append, Envelope.length_toBytes,
          Sealer.length_encode, Sealer.payloadLength_header (hfits hp)]

include hcipher in
theorem payload_artifact (hflags : before.protection = true → after.protection = true)
    (hfits : Fits ⟨before, cipher, signature⟩ unit) :
    let bytes := artifact ⟨before, cipher, signature⟩ unit
    payload ⟨after, cipher, signature⟩ bytes bytes.length = unit.toBytes := by
  intro bytes
  have hkind := contentOf_artifact cipher signature hflags hfits
  unfold payload
  cases hp : before.protection with
  | false =>
      rw [if_neg fun hsealed => by rw [hkind.mp hsealed] at hp; exact nomatch hp]
      exact if_neg (by simp [Sealer.isProtecting, hp])
  | true =>
      have hsealed :
          bytes = (Sealer.header unit.toBytes).toBytes ++ cipher.encipher unit.toBytes := by
        simp only [bytes, artifact, Sealer.isProtecting, Sealer.encode, hp, if_true]
      rw [if_pos (hkind.mpr hp), hsealed, List.drop_left' (Envelope.length_toBytes _)]
      exact (if_pos (hflags hp)).trans (Substitution.decipher_encipher hcipher unit.toBytes)

end

end Dump

/-! ## Loading a dump -/

/-- A module read back and how it was told to have been dumped. -/
def Compilation.Restores (unit : CompiledModule) (flags : Flags)
    (result : Except ModuleError Compilation) : Prop :=
  ∃ compilation, result = .ok compilation ∧ compilation.unit = unit ∧
    (compilation.content = .sealedModule ↔ flags.protection = true)

namespace Dump

theorem restores_artifact (cipher : Substitution) (hcipher : cipher.Invertible)
    (signature : UInt8) {before after : Flags}
    (hflags : before.protection = true → after.protection = true) {unit : CompiledModule}
    (hmessage : unit.failure ≠ some "") (hlength : unit.toBytes.length < UInt32.size)
    (chunk : Option String) :
    let bytes := artifact ⟨before, cipher, signature⟩ unit
    Compilation.Restores unit before
      (Compilation.outcome ⟨after, cipher, signature⟩ bytes bytes.length chunk) := by
  intro bytes
  have hread := Interpreter.read_toBytes hmessage (CompiledModule.measurable_of_length hlength)
    (chunk.getD Interpreter.anonymous)
  rw [← payload_artifact cipher hcipher signature hflags fun _ => hlength] at hread
  unfold Compilation.outcome
  rw [hread]
  exact ⟨_, rfl, rfl, contentOf_artifact cipher signature hflags fun _ => hlength⟩

/-- Any module that was ever loaded is dumped and loaded again as it was, from
memory and from a file, whatever the block sizes and the name it is loaded
under. -/
theorem dumped_module_loads_again {σ : Type} [Feed σ] {origin : Interpreter} {source : σ}
    {name : Option String} {unit : CompiledModule} (hunit : (origin.load source name).1 = .ok unit)
    (hlength : unit.toBytes.length < UInt32.size) (key : Bytes) (signature : UInt8)
    {before after : Flags} (hflags : before.protection = true → after.protection = true)
    (dumpSize loadSize : Nat) (interpreter : Interpreter) (chunk : Option String) :
    let dumping : Sealer := ⟨before, Substitution.ofKey key, signature⟩
    let loading : Sealer := ⟨after, Substitution.ofKey key, signature⟩
    (∃ bytes report, toBytes dumping unit dumpSize = .ok (bytes, report) ∧
      Compilation.Restores unit before (Compilation.ofBytes interpreter loading bytes chunk).1) ∧
    ∀ (disk disk' : Disk) (path : String) (report : DumpReport),
      toFile dumping unit dumpSize disk path = (.ok report, disk') →
        Compilation.Restores unit before
          (Compilation.ofFile interpreter loading disk' path chunk loadSize).1 := by
  intro dumping loading
  have hmessage : unit.failure ≠ some "" := Interpreter.failure_of_read hunit
  have hrestores := restores_artifact (Substitution.ofKey key) (Substitution.invertible_ofKey key)
    signature hflags hmessage hlength
  constructor
  · refine ⟨_, _, toBytes_eq dumping unit dumpSize hlength, ?_⟩
    rw [Compilation.ofBytes_eq]
    exact hrestores chunk
  · intro disk disk' path report hfile
    obtain ⟨location, opened, hcreate, -, -, rfl⟩ :=
      (toFile_eq_ok_iff dumping unit dumpSize hlength).mp hfile
    have hopen := Disk.openFile_store hcreate (artifact dumping unit)
    rw [Compilation.ofFile_of_openFile interpreter loading hopen]
    exact hrestores _

/-- A script that returns seven, dumped sealed and loaded again, from memory
and from a new file. -/
theorem script_loads_again :
    let origin : Interpreter := {}
    let script := Utf8.encode "return 7"
    let unit : CompiledModule := ⟨some 7, none, "?", script⟩
    let sealer : Sealer := ⟨{}, Substitution.ofKey Sealer.defaultKey, Sealer.defaultSignature⟩
    (origin.load (Queue.mk [script]) none).1 = .ok unit ∧ unit.toBytes.length < UInt32.size ∧
      (∃ bytes report, toBytes sealer unit 7 = .ok (bytes, report) ∧
        Compilation.Restores unit {} (Compilation.ofBytes origin sealer bytes (some "m")).1) ∧
      ∃ report disk', toFile sealer unit 7 Disk.scratch "a" = (.ok report, disk') ∧
        Compilation.Restores unit {}
          (Compilation.ofFile origin sealer disk' "a" (some "m") 5).1 := by
  intro origin script unit sealer
  have hdrain : (Feed.drain (Queue.mk [script])).1 = script := by
    rw [Feed.drain_eq, Feed.blocks_of_some rfl, Feed.blocks_of_none rfl]
    exact List.flatten_singleton
  have hunit : (origin.load (Queue.mk [script]) none).1 = .ok unit := by
    rw [Interpreter.load_eq, hdrain]
    decide
  have hlength : unit.toBytes.length < UInt32.size := by
    rw [CompiledModule.toBytes_eq_written]
    decide
  obtain ⟨hmemory, hfile⟩ := dumped_module_loads_again hunit hlength Sealer.defaultKey
    Sealer.defaultSignature id 7 5 origin (some "m")
  have hcreated : ∃ report disk', toFile sealer unit 7 Disk.scratch "a" = (.ok report, disk') :=
    ⟨_, _, (toFile_eq_ok_iff sealer unit 7 hlength).mpr
      ⟨_, _, rfl, Disk.admits_of_limits_eq rfl _, rfl, rfl⟩⟩
  obtain ⟨report, disk', hok⟩ := hcreated
  exact ⟨hunit, hlength, hmemory, report, disk', hok, hfile _ _ _ _ hok⟩

end Dump

end SealedModules
