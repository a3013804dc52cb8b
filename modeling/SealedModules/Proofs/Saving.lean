/-
# An asset preloaded and saved

A preload that saves compiles an asset, dumps the module to a file, and then
registers it.  If it succeeds, what is registered is what was dumped
(`saved_of_preloadAndDump`); if it fails, at whatever step, nothing is
registered.

What the file then holds is the binary form, wrapped if protection is on.  As
long as the flags and the file are left alone it is read back to the binary
form (`payload_of_isDump`), and the interpreter makes the module of that again.
How the asset was stored is not seen: whatever is compiled was read by the
interpreter, and so has no empty message, which the binary form could not
express.

Nothing holds back a module with a field of 4 GiB or more where protection is
off.  Its dump does not tell the length of that field, and loading the file
gives something else (`compileFile_eq_ok_iff`).
-/
import SealedModules.Proofs.BinaryLayout
import SealedModules.Proofs.Histories
import SealedModules.Proofs.Reloading
import SealedModules.Proofs.Transparency

namespace SealedModules

/-! ## What was compiled was read -/

namespace Compilation

theorem exists_read_of_ofFeed {given : Interpreter} {feed : StreamFeed} {chunk path : String}
    {compilation : Compilation} (h : (ofFeed given feed chunk path).1 = .ok compilation) :
    ∃ bytes, Interpreter.read bytes chunk = .ok compilation.unit := by
  unfold ofFeed at h
  simp only [Interpreter.load_eq, Option.getD_some] at h
  split at h
  · cases h
  · split at h
    · rename_i unit hread
      obtain rfl := Except.ok.inj h
      exact ⟨_, hread⟩
    · cases h

theorem exists_read_of_ofAsset {given : Interpreter} {sealer : Sealer} {disk : Disk}
    {source : AssetSource} {path : String} {chunk : Option String} {blockSize : Nat}
    {compilation : Compilation}
    (h : (ofAsset given sealer disk source path chunk blockSize).1 = .ok compilation) :
    ∃ bytes, Interpreter.read bytes (chunk.getD (pathChunk path)) = .ok compilation.unit := by
  unfold ofAsset at h
  cases hfetch : source.fetch disk path with
  | error error =>
      rw [hfetch] at h
      cases h
  | ok asset =>
      rw [hfetch] at h
      exact exists_read_of_ofFeed h

end Compilation

/-! ## What a dump is read back to -/

namespace Dump

variable {sealer : Sealer} {unit : CompiledModule}

theorem exists_isDump_of_toFile {blockSize : Nat} {disk disk' : Disk} {path : String}
    {report : DumpReport} (h : toFile sealer unit blockSize disk path = (.ok report, disk')) :
    ∃ bytes, disk'.fileBytes path = .ok bytes ∧ IsDump sealer unit bytes report := by
  obtain ⟨hfits, location, opened, hcreate, -, rfl, rfl⟩ :=
    (toFile_ok_iff sealer unit blockSize).mp h
  exact ⟨_, Disk.fileBytes_store hcreate _, isDump_of_fits sealer unit hfits⟩

theorem payload_of_isDump (hcipher : sealer.cipher.Invertible) {bytes : Bytes}
    {report : DumpReport} (h : IsDump sealer unit bytes report) :
    payload sealer bytes bytes.length = unit.toBytes := by
  cases hp : sealer.isProtecting with
  | true =>
      have hunwrap : sealer.unwrap bytes = .ok unit.toBytes :=
        (Sealer.unwrap_eq_ok_iff_wrap hcipher).mpr (h.wrapped hp)
      exact payload_of_unwrap hunwrap
  | false => rw [payload_of_not_protecting hp, h.plain hp]

theorem measurable_of_isDump (hp : sealer.isProtecting = true) {bytes : Bytes}
    {report : DumpReport} (h : IsDump sealer unit bytes report) : unit.Measurable :=
  CompiledModule.measurable_of_length (Sealer.wrap_eq_ok_iff.mp (h.wrapped hp)).2.1

end Dump

namespace World

variable {w : World}

/-- A file is loaded as its payload is read, by its path if under no other
name. -/
theorem fst_compileFile {path : String} {bytes : Bytes} (h : w.disk.fileBytes path = .ok bytes)
    (chunk : Option String) :
    (w.compileFile path chunk).1 =
      (Interpreter.read (payload w.system.sealer bytes bytes.length)
        (chunk.getD (Compilation.pathChunk path))).mapError
          (.rejected (chunk.getD (Compilation.pathChunk path))) := by
  have hnamed : w.compileFile path chunk =
      w.compileFile path (some (chunk.getD (Compilation.pathChunk path))) := rfl
  rw [hnamed, (Loaded.file h).eq, interpret_eq]

theorem fst_compileFile_of_isDump {path : String} {bytes : Bytes} {unit : CompiledModule}
    {report : DumpReport} (hcipher : w.system.sealer.cipher.Invertible)
    (h : w.disk.fileBytes path = .ok bytes) (hdump : Dump.IsDump w.system.sealer unit bytes report)
    (chunk : Option String) :
    (w.compileFile path chunk).1 =
      (Interpreter.read unit.toBytes (chunk.getD (Compilation.pathChunk path))).mapError
        (.rejected (chunk.getD (Compilation.pathChunk path))) := by
  rw [fst_compileFile h, Dump.payload_of_isDump hcipher hdump]

theorem compileFile_eq_ok_iff {path : String} {bytes : Bytes} {unit found : CompiledModule}
    {report : DumpReport} (hcipher : w.system.sealer.cipher.Invertible)
    (h : w.disk.fileBytes path = .ok bytes) (hdump : Dump.IsDump w.system.sealer unit bytes report)
    (chunk : Option String) :
    (w.compileFile path chunk).1 = .ok found ↔
      Interpreter.read unit.toBytes (chunk.getD (Compilation.pathChunk path)) = .ok found := by
  rw [fst_compileFile_of_isDump hcipher h hdump]
  cases Interpreter.read unit.toBytes (chunk.getD (Compilation.pathChunk path)) with
  | error message => exact ⟨nofun, nofun⟩
  | ok read => rw [Except.mapError, Except.ok.injEq, Except.ok.injEq]

theorem failure_of_compileAsset {path : String} {chunk : Option String} {unit : CompiledModule}
    (h : (w.compileAsset path chunk).1 = .ok unit) : unit.failure ≠ some "" := by
  unfold compileAsset at h
  split at h
  · cases h
  · rename_i source _
    have h : Except.map (·.unit) (Compilation.ofAsset w.system.interpreter w.system.sealer w.disk
        source path chunk w.system.blockSize).1 = .ok unit := h
    cases hcompile : (Compilation.ofAsset w.system.interpreter w.system.sealer w.disk source path
        chunk w.system.blockSize).1 with
    | error error =>
        rw [hcompile] at h
        cases h
    | ok compilation =>
        rw [hcompile] at h
        obtain rfl := Except.ok.inj h
        obtain ⟨bytes, hread⟩ := Compilation.exists_read_of_ofAsset hcompile
        exact Interpreter.failure_of_read hread

/-! ## One preload that saves -/

theorem sealer_compileAsset (w : World) (path : String) (chunk : Option String) :
    (w.compileAsset path chunk).2.system.sealer = w.system.sealer := by
  unfold compileAsset
  split
  · rfl
  · rfl

theorem sealer_preloadAndDump (w : World) (name path out : String) :
    (w.preloadAndDump name path out).2.system.sealer = w.system.sealer :=
  sealer_eq_of_form (stays_preloadAndDump w name path out).form
    (flags_meet w (.request (.preloadAndDump name path out)))

/-- What a preload that saves leaves: one module compiled, registered and in
the file. -/
theorem saved_of_preloadAndDump {name path out : String} {report : DumpReport}
    (h : (w.preloadAndDump name path out).1 = .ok report) :
    let w' := (w.preloadAndDump name path out).2
    ∃ unit bytes, (w.compileAsset path (some name)).1 = .ok unit ∧
      w'.system.registry.get? name = some unit ∧ w'.disk.fileBytes out = .ok bytes ∧
      Dump.IsDump w.system.sealer unit bytes report := by
  have hsaves := saves_preloadAndDump w name path out
  generalize w.preloadAndDump name path out = result at h hsaves
  cases hsaves with
  | uncompiled => cases h
  | undumped => cases h
  | @saved unit written compiled dumped hcompile hdump =>
      obtain rfl := Except.ok.inj h
      have hsealer : compiled.system.sealer = w.system.sealer := by
        rw [← sealer_compileAsset w path (some name), hcompile]
      unfold dumpTo at hdump
      obtain ⟨hreport, rfl⟩ := Prod.mk.inj hdump
      obtain ⟨bytes, hbytes, hisDump⟩ := Dump.exists_isDump_of_toFile (Prod.ext hreport rfl)
      refine ⟨unit, bytes, congrArg Prod.fst hcompile, ?_, hbytes, hsealer ▸ hisDump⟩
      show (Dictionary.insert _ name unit).get? name = some unit
      rw [Dictionary.get?_insert, if_pos rfl]

section Serves

variable {source : AssetSource} {name path out : String} {bytes : Bytes} {unit : CompiledModule}

theorem compileAsset_of_serves (hassets : w.system.assets = some source)
    (hserves : source.Serves w.disk path bytes)
    (hread : Interpreter.read (payload w.system.sealer bytes bytes.length) name = .ok unit) :
    w.compileAsset path (some name) =
      (.ok unit, w.withInterpreter (w.system.interpreter.noteLoad name)) := by
  rw [(Loaded.asset hassets hserves).eq, interpret_eq, hread]
  rfl

/-- An asset whose payload can be read is saved exactly if its dump fits where it
goes. -/
theorem preloadAndDump_isOk_iff (hassets : w.system.assets = some source)
    (hserves : source.Serves w.disk path bytes)
    (hread : Interpreter.read (payload w.system.sealer bytes bytes.length) name = .ok unit) :
    (∃ report, (w.preloadAndDump name path out).1 = .ok report) ↔
      Dump.Fits w.system.sealer unit ∧ ∃ location, w.disk.target out = .ok location ∧
        w.disk.Admits location (Dump.effort w.system.sealer unit) := by
  rw [← Dump.toFile_isOk_iff w.system.sealer unit w.system.blockSize, preloadAndDump,
    compileAsset_of_serves hassets hserves hread]
  simp only
  cases hdump : (w.withInterpreter (w.system.interpreter.noteLoad name)).dumpTo unit out with
  | mk result dumped =>
      have hresult : (Dump.toFile w.system.sealer unit w.system.blockSize w.disk out).1 = result :=
        congrArg Prod.fst hdump
      rw [hresult]
      cases result with
      | error error => rfl
      | ok report => rfl

end Serves

theorem registry_of_preloadAndDump_error {name path out : String} {error : ModuleError}
    (h : (w.preloadAndDump name path out).1 = .error error) :
    (w.preloadAndDump name path out).2.system.registry = w.system.registry := by
  have hfailed : (w.perform (.preloadAndDump name path out)).1 = .failed error := by
    show Answer.ofOutcome _ (w.preloadAndDump name path out).1 = _
    rw [h]
    rfl
  exact (keeps_of_failed hfailed).registry

/-! ## The law of saving -/

theorem resolve_of_chain {name : String} {unit : CompiledModule}
    (h : w.system.registry.get? name = some unit) {later : Chain}
    (hchain : w.system.chain = .registry :: later) :
    (w.resolve name).1 = .ok ⟨unit, ":preload:", "preload"⟩ := by
  have hsame : w.withLater later = w := by rw [withLater, ← hchain]
  rw [← hsame, resolve_of_registered h]

/-- After any history of a system that was built: a preload that saves and
succeeds leaves the module it compiled registered, and its dump in the file
with a report that is true of it; as long as the flags and the file are left
alone, the file is loaded as its binary form is read, under any chunk name, and
so as the same module just if the lengths of its fields could be written, as
they could for a sealed dump.  If it fails, what is registered is as before. -/
theorem saved_module_is_registered {settings : Settings} {installation : Installation}
    {system : ModuleSystem} (h : ModuleSystem.build settings installation = .ok system)
    (disk : Disk) (events : List Event) (name path out : String) :
    let w := (World.mk system disk).after events
    let w' := (w.preloadAndDump name path out).2
    (∀ report, (w.preloadAndDump name path out).1 = .ok report →
      ∃ unit bytes, (w.compileAsset path (some name)).1 = .ok unit ∧
        (w'.resolve name).1 = .ok ⟨unit, ":preload:", "preload"⟩ ∧
        w'.disk.fileBytes out = .ok bytes ∧ Dump.IsDump w.system.sealer unit bytes report ∧
        (w.flags.protection = true → unit.Measurable) ∧
        ∀ more, (w'.after more).flags = w.flags →
          (w'.after more).disk.fileBytes out = .ok bytes → ∀ chunk : Option String,
            let title := chunk.getD (Compilation.pathChunk out)
            let loaded := ((w'.after more).compileFile out chunk).1
            loaded = (Interpreter.read unit.toBytes title).mapError (.rejected title) ∧
              (loaded = .ok unit ↔ unit.Measurable)) ∧
    ∀ error, (w.preloadAndDump name path out).1 = .error error →
      w'.system.registry = w.system.registry := by
  intro w w'
  refine ⟨fun report hreport => ?_, fun error => registry_of_preloadAndDump_error⟩
  obtain ⟨unit, bytes, hunit, hregistered, hbytes, hdump⟩ := saved_of_preloadAndDump hreport
  obtain ⟨-, -, first, hfirst⟩ := build_eq_ok h
  obtain ⟨later, hchain⟩ := chain_after (w := World.mk system disk) hfirst events
  obtain ⟨later', hchain'⟩ := chain_meet hchain (.request (.preloadAndDump name path out))
  obtain ⟨hform, -⟩ := form_of_build h disk
  refine ⟨unit, bytes, hunit, resolve_of_chain hregistered hchain', hbytes, hdump,
    fun hprotecting => Dump.measurable_of_isDump hprotecting hdump, ?_⟩
  intro more hflags hfile chunk title loaded
  -- the same flags make it the sealer of the dump
  have hsame : (w'.after more).form = w.form := by
    rw [form_after]
    exact (stays_preloadAndDump w name path out).form
  have hsealer : (w'.after more).system.sealer = w.system.sealer :=
    sealer_eq_of_form hsame hflags
  have hcipher : w.system.sealer.cipher.Invertible := by
    have hkey : w.system.sealer.cipher = settings.cipher :=
      congrArg Prod.fst ((form_after _ events).trans hform)
    rw [hkey]
    exact Substitution.invertible_ofKey _
  have hagain : Interpreter.read unit.toBytes title = .ok unit ↔ unit.Measurable :=
    Interpreter.read_toBytes_iff (failure_of_compileAsset hunit) title
  exact ⟨fst_compileFile_of_isDump (hsealer ▸ hcipher) hfile (hsealer ▸ hdump) chunk,
    (compileFile_eq_ok_iff (hsealer ▸ hcipher) hfile (hsealer ▸ hdump) chunk).trans hagain⟩

/-- With protection off, a module in binary form whose message is 1431655766
bytes that are not UTF-8: its dump has a length that does not fit, and the file
it was saved in is loaded as something else. -/
theorem long_message_is_not_loaded_again :
    let message : Bytes := List.replicate 1431655766 0xFF
    let bytes : Bytes := [0x1B, 0x54, 0x4E, 0x59, 1] ++
      ([0] ++ (([0x56, 0x55, 0x55, 0x55] ++ message) ++ ([0, 0, 0, 0] ++ [0, 0, 0, 0])))
    let unit : CompiledModule := ⟨none, some (Utf8.decode message), "", []⟩
    let index : AssetIndex := Dictionary.empty.insert "m" (.embedded bytes)
    ∃ system, ModuleSystem.build { flags := ⟨false, true⟩ } { assets := some index.toSource } =
        .ok system ∧
      let w : World := ⟨system, Disk.scratch⟩
      let w' := (w.preloadAndDump "n" "m" "o").2
      (∃ report, (w.preloadAndDump "n" "m" "o").1 = .ok report) ∧
        (w'.resolve "n").1 = .ok ⟨unit, ":preload:", "preload"⟩ ∧ w'.flags = w.flags ∧
        w'.disk.fileBytes "o" = .ok unit.toBytes ∧
        (w'.compileFile "o" (some "other")).1 ≠ .ok unit := by
  intro message bytes unit index
  let sealer : Sealer := ⟨⟨false, true⟩, Substitution.ofKey Sealer.defaultKey,
    Sealer.defaultSignature⟩
  obtain ⟨system, later, hbuild, hsealer, hassets, hchain⟩ : ∃ system later,
      ModuleSystem.build { flags := ⟨false, true⟩ } { assets := some index.toSource } =
          .ok system ∧ system.sealer = sealer ∧ system.assets = some index.toSource ∧
        system.chain = .registry :: later := ⟨_, _, rfl, rfl, rfl, rfl⟩
  let w : World := ⟨system, Disk.scratch⟩
  have hprotecting : w.system.sealer.isProtecting = false := congrArg Sealer.isProtecting hsealer
  have hread (name : String) :
      Interpreter.read bytes name = .ok unit ∧ Interpreter.read unit.toBytes name ≠ .ok unit :=
    Interpreter.read_of_invalid (by decide) rfl (by decide) name
  have hserves : index.toSource.Serves w.disk "m" bytes :=
    AssetIndex.serves_insert (by decide) _ _ bytes
  have hpayload : Interpreter.read (payload w.system.sealer bytes bytes.length) "n" = .ok unit := by
    rw [payload_of_not_protecting hprotecting]
    exact (hread "n").1
  obtain ⟨report, hsaves⟩ : ∃ report, (w.preloadAndDump "n" "m" "o").1 = .ok report :=
    (preloadAndDump_isOk_iff hassets hserves hpayload).mpr
      ⟨fun hon => absurd (hprotecting.symm.trans hon) Bool.false_ne_true, ["tmp", "work", "o"],
        rfl, Disk.admits_of_limits_eq rfl _⟩
  obtain ⟨found, left, hfound, hregistered, hleft, hdump⟩ := saved_of_preloadAndDump hsaves
  obtain rfl : unit = found := by
    rw [compileAsset_of_serves hassets hserves hpayload] at hfound
    exact Except.ok.inj hfound
  obtain rfl : left = unit.toBytes := hdump.plain hprotecting
  obtain ⟨later', hchain'⟩ := chain_meet (w := w) hchain (.request (.preloadAndDump "n" "m" "o"))
  have hflags := flags_meet w (.request (.preloadAndDump "n" "m" "o"))
  have hkept := sealer_preloadAndDump w "n" "m" "o"
  have hcipher : w.system.sealer.cipher.Invertible := by
    rw [show w.system.sealer = sealer from hsealer]
    exact Substitution.invertible_ofKey _
  refine ⟨system, hbuild, ⟨report, hsaves⟩, resolve_of_chain hregistered hchain', hflags, hleft,
    fun hloaded => (hread "other").2 ?_⟩
  exact (compileFile_eq_ok_iff (hkept ▸ hcipher) hleft (hkept ▸ hdump) _).mp hloaded

/-- A sealed script among the assets, saved and loaded again under another
name; then saved again on a disk that has no room for the module, has none for
its header again, or does not close the file. -/
theorem sealed_asset_is_saved :
    let script := Utf8.encode "return 7"
    let sealer : Sealer := ⟨{}, Substitution.ofKey Sealer.defaultKey, Sealer.defaultSignature⟩
    let unit : CompiledModule := ⟨some 7, none, "n", script⟩
    ∃ bytes system, sealer.wrap script = .ok bytes ∧
      let index : AssetIndex := Dictionary.empty.insert "m" (.embedded bytes)
      ModuleSystem.build {} { assets := some index.toSource } = .ok system ∧
        let w : World := ⟨system, Disk.scratch⟩
        let w' := (w.preloadAndDump "n" "m" "o").2
        (∃ report, (w.preloadAndDump "n" "m" "o").1 = .ok report) ∧
          (w'.resolve "n").1 = .ok ⟨unit, ":preload:", "preload"⟩ ∧
          w'.flags = w.flags ∧ (w'.compileFile "o" (some "other")).1 = .ok unit ∧
          ∀ limit ∈ [({ room := some 40 } : Limit), { room := some 50 },
              { closing := some (.other "no") }],
            let disk : Disk := { Disk.scratch with limits := fun _ => limit }
            let limited := w'.meet (.outside disk {} (some index.toSource) [])
            (∃ error, (limited.preloadAndDump "n" "m" "o").1 = .error error) ∧
              (limited.preloadAndDump "n" "m" "o").2.system.registry = w'.system.registry := by
  intro script sealer unit
  obtain ⟨bytes, hwrap⟩ : ∃ bytes, sealer.wrap script = .ok bytes :=
    ⟨_, Sealer.wrap_eq_ok_iff.mpr ⟨rfl, by decide, rfl⟩⟩
  let index : AssetIndex := Dictionary.empty.insert "m" (.embedded bytes)
  obtain ⟨system, hbuild, hsealer, hassets⟩ : ∃ system,
      ModuleSystem.build {} { assets := some index.toSource } = .ok system ∧
        system.sealer = sealer ∧ system.assets = some index.toSource := ⟨_, rfl, rfl, rfl⟩
  let w : World := ⟨system, Disk.scratch⟩
  have hread : Interpreter.read (payload sealer bytes bytes.length) "n" = .ok unit := by
    have hcipher : sealer.cipher.Invertible := Substitution.invertible_ofKey _
    rw [payload_of_unwrap ((Sealer.unwrap_eq_ok_iff_wrap hcipher).mpr hwrap)]
    decide
  have hcount : unit.toBytes.length = 35 := by
    rw [CompiledModule.toBytes_eq_written]
    decide
  have hfits : Dump.Fits system.sealer unit := fun _ => by
    rw [hcount]
    decide
  have hserves (disk : Disk) : index.toSource.Serves disk "m" bytes :=
    AssetIndex.serves_insert (by decide) _ disk bytes
  obtain ⟨report, hsaves⟩ : ∃ report, (w.preloadAndDump "n" "m" "o").1 = .ok report :=
    (preloadAndDump_isOk_iff hassets (hserves _) (hsealer ▸ hread)).mpr
      ⟨hfits, ["tmp", "work", "o"], rfl, Disk.admits_of_limits_eq rfl _⟩
  obtain ⟨hsaved, -⟩ := saved_module_is_registered hbuild Disk.scratch [] "n" "m" "o"
  obtain ⟨found, left, hfound, hresolved, hleft, -, hsealed, hloads⟩ := hsaved report hsaves
  have hcompile : (w.compileAsset "m" (some "n")).1 = .ok unit :=
    congrArg Prod.fst (compileAsset_of_serves hassets (hserves _) (hsealer ▸ hread))
  obtain rfl : found = unit := Except.ok.inj (hfound.symm.trans hcompile)
  have hflags := flags_meet w (.request (.preloadAndDump "n" "m" "o"))
  have hprotecting : w.flags.protection = true := by
    rw [show w.flags = _ from congrArg Sealer.flags hsealer]
  have hloaded := (hloads [] hflags hleft (some "other")).2.mpr (hsealed hprotecting)
  refine ⟨bytes, system, hwrap, hbuild, ⟨report, hsaves⟩, hresolved, hflags, hloaded, ?_⟩
  intro limit hlimit disk limited
  have hkept : limited.system.sealer = sealer :=
    (sealer_preloadAndDump w "n" "m" "o").trans hsealer
  have hfails : ¬ ∃ report, (limited.preloadAndDump "n" "m" "o").1 = .ok report := by
    have hassets : limited.system.assets = some index.toSource := rfl
    have heffort : Dump.effort limited.system.sealer unit = 59 := by
      rw [Dump.effort, Dump.length_body, hcount, hkept]
      rfl
    rw [preloadAndDump_isOk_iff hassets (hserves _) (hkept ▸ hread), heffort]
    rintro ⟨-, location, -, hroom, hclosing⟩
    rcases List.mem_cons.mp hlimit with rfl | hlimit
    · exact absurd (hroom 40 rfl) (by decide)
    rcases List.mem_pair.mp hlimit with rfl | rfl
    · exact absurd (hroom 50 rfl) (by decide)
    · cases hclosing
  obtain ⟨error, herror⟩ : ∃ error, (limited.preloadAndDump "n" "m" "o").1 = .error error := by
    cases hresult : (limited.preloadAndDump "n" "m" "o").1 with
    | error error => exact ⟨error, rfl⟩
    | ok report => exact absurd ⟨report, hresult⟩ hfails
  obtain ⟨-, hlost⟩ := saved_module_is_registered hbuild Disk.scratch
    [.request (.preloadAndDump "n" "m" "o"), .outside disk {} (some index.toSource) []] "n" "m" "o"
  exact ⟨⟨error, herror⟩, hlost error herror⟩

end World

end SealedModules
