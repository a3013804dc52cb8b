/-
# What inspecting a file tells about loading it

Inspecting reads the first twelve bytes of a file, whatever the settings; a
feed reads ahead as far as its sealer needs, and nothing of an empty file.  Both
tell the content of the whole bytes in the end (`inspected`, `loaded_as`), but
not with the same sealer: inspecting works with protection on, as sealing and
unsealing do, and loading with the flags as they are set.  So the two agree on
everything that is not a whole envelope, and on whole envelopes just if
protection is on.

What becomes of the bytes does not matter here, so a file is loaded by an engine
of any kind (`Compilation.ofFileBy`), of which the interpreter is one
(`Compilation.ofFile_eq_ofFileBy`).  The interpreter alone would not show the
difference: it refuses an envelope that is not taken off
(`Compilation.not_encloses_of_ofFile`).
-/
import SealedModules.Command.Invocation
import SealedModules.Proofs.SealedFiles
import SealedModules.Proofs.Transparency

namespace SealedModules

/-! ## Loading by any engine -/

/-- Whatever makes a module of what it takes from a feed under the name of a
chunk, and leaves the feed in some state. -/
abbrev Engine := StreamFeed → Option String → Except String CompiledModule × StreamFeed

/-- The interpreter as an engine. -/
def Interpreter.toEngine (interpreter : Interpreter) : Engine := fun feed chunk =>
  ((interpreter.load feed chunk).1, (interpreter.load feed chunk).2.2)

/-- The engine that takes a feed in to its end and is content with anything. -/
def Engine.contented (unit : CompiledModule) : Engine := fun feed _ =>
  (.ok unit, (Feed.drain feed).2)

namespace Compilation

/-- A module compiled from a stream by an engine. -/
def ofFeedBy (engine : Engine) (feed : StreamFeed) (chunk path : String) :
    Except ModuleError Compilation :=
  let (loaded, after) := engine feed (some chunk)
  match after.takeFault.1 with
  | some fault => .error (.failed (.reading feed.content) path fault)
  | none =>
    match loaded with
    | .ok unit => .ok ⟨unit, feed.content, some chunk, after.consumed⟩
    | .error message => .error (.rejected chunk message)

/-- A module compiled from a file by an engine. -/
def ofFileBy (engine : Engine) (sealer : Sealer) (disk : Disk) (path : String)
    (chunk : Option String) (blockSize : Nat) : Except ModuleError Compilation :=
  match disk.openFile path with
  | .error fault => .error (openError "file" path fault)
  | .ok (length, reader) =>
    ofFeedBy engine (.ofReader reader length sealer blockSize) (chunk.getD (pathChunk path)) path

theorem ofFeed_eq_ofFeedBy (interpreter : Interpreter) (feed : StreamFeed) (chunk path : String) :
    (ofFeed interpreter feed chunk path).1 = ofFeedBy interpreter.toEngine feed chunk path := by
  simp only [ofFeed, ofFeedBy, Interpreter.toEngine]
  cases (interpreter.load feed (some chunk)).2.2.takeFault.1 with
  | some fault => rfl
  | none =>
      cases (interpreter.load feed (some chunk)).1 with
      | ok unit => rfl
      | error message => rfl

theorem ofFile_eq_ofFileBy (interpreter : Interpreter) (sealer : Sealer) (disk : Disk)
    (path : String) (chunk : Option String) (blockSize : Nat) :
    (ofFile interpreter sealer disk path chunk blockSize).1 =
      ofFileBy interpreter.toEngine sealer disk path chunk blockSize := by
  unfold ofFile ofFileBy
  cases disk.openFile path with
  | error fault => rfl
  | ok opened => exact ofFeed_eq_ofFeedBy interpreter _ _ _

theorem content_of_ofFeedBy {engine : Engine} {feed : StreamFeed} {chunk path : String}
    {compilation : Compilation} (h : ofFeedBy engine feed chunk path = .ok compilation) :
    compilation.content = feed.content := by
  unfold ofFeedBy at h
  dsimp only at h
  split at h
  · cases h
  · split at h
    · obtain rfl := Except.ok.inj h
      rfl
    · cases h

end Compilation

/-! ## The content of a file -/

theorem Disk.openFile_of_lookup {disk : Disk} {path : String} {bytes : Bytes}
    (h : disk.lookup path = .ok (.file bytes)) :
    disk.openFile path = .ok (bytes.length, { rest := bytes }) :=
  bind_eq_ok.mpr ⟨_, h, rfl⟩

theorem Reader.steadyPlan_of_bytes (bytes : Bytes) : SteadyPlan (Reader.mk bytes []).plan :=
  fun _ hmem => absurd hmem List.not_mem_nil

namespace Compilation

/-- However much of it is read ahead, a file is loaded as what it holds as a
whole. -/
theorem loaded_as {engine : Engine} {sealer : Sealer} {disk : Disk} {path : String} {bytes : Bytes}
    {chunk : Option String} {blockSize : Nat} {compilation : Compilation}
    (hfile : disk.lookup path = .ok (.file bytes))
    (h : ofFileBy engine sealer disk path chunk blockSize = .ok compilation) :
    compilation.content = sealer.classifyWhole bytes := by
  rw [ofFileBy, Disk.openFile_of_lookup hfile] at h
  have hsteady : StreamFeed.Undisturbed { rest := bytes } bytes.length sealer blockSize :=
    StreamFeed.undisturbed_of_steadyPlan (Reader.steadyPlan_of_bytes bytes) _ _ _
  calc compilation.content
      = (StreamFeed.ofReader { rest := bytes } bytes.length sealer blockSize).content :=
        content_of_ofFeedBy h
    _ = StreamFeed.contentOf sealer bytes bytes.length := StreamFeed.content_ofReader hsteady
    _ = sealer.classifyWhole bytes := (BufferFeed.content_ofBytes sealer bytes).symm

theorem not_encloses_of_ofFile {interpreter : Interpreter} {sealer : Sealer} {disk : Disk}
    {path : String} {bytes : Bytes} {chunk : Option String} {blockSize : Nat}
    {compilation : Compilation} (hfile : disk.lookup path = .ok (.file bytes))
    (h : (ofFile interpreter sealer disk path chunk blockSize).1 = .ok compilation) :
    sealer.isProtecting = true ∨ ¬ Envelope.Encloses bytes := by
  cases hprotecting : sealer.isProtecting with
  | true => exact .inl rfl
  | false =>
      refine .inr fun hencloses => ?_
      obtain ⟨message, hmessage⟩ := Interpreter.read_of_opens hencloses.1
        (chunk.getD (pathChunk path))
      rw [ofFile_of_openFile interpreter sealer (Disk.openFile_of_lookup hfile), outcome,
        payload_of_not_protecting hprotecting, Option.getD_some, hmessage] at h
      cases h

/-- A file can be loaded if the engine is content with anything. -/
theorem exists_ofFileBy_contented {disk : Disk} {path : String} {bytes : Bytes}
    (hfile : disk.lookup path = .ok (.file bytes)) (unit : CompiledModule) (sealer : Sealer)
    (chunk : Option String) (blockSize : Nat) :
    ∃ compilation,
      ofFileBy (.contented unit) sealer disk path chunk blockSize = .ok compilation := by
  have hsteady : StreamFeed.Undisturbed { rest := bytes } bytes.length sealer blockSize :=
    StreamFeed.undisturbed_of_steadyPlan (Reader.steadyPlan_of_bytes bytes) _ _ _
  have hcalm := (StreamFeed.blocks_ofReader hsteady).2
  rw [ofFileBy, Disk.openFile_of_lookup hfile]
  simp only [ofFeedBy, Engine.contented, Feed.drain_eq, StreamFeed.takeFault, hcalm]
  exact ⟨_, rfl⟩

end Compilation

namespace Sealer

/-- Two sealers that differ in their flags only take bytes for the same, unless
these are a whole envelope and one of the two has protection off. -/
theorem classifyWhole_eq_iff {s t : Sealer} (hprotecting : t.isProtecting = true)
    (hsignature : t.signature = s.signature) (bytes : Bytes) :
    t.classifyWhole bytes = s.classifyWhole bytes ↔
      s.isProtecting = true ∨ ¬ Envelope.Encloses bytes := by
  have henvelope : t.classifyWhole bytes = .sealedModule ↔ Envelope.Encloses bytes :=
    classifyWhole_eq_sealedModule_iff hprotecting
  cases hs : s.isProtecting with
  | true =>
      refine iff_of_true ?_ (.inl rfl)
      simp only [classifyWhole, classify, hprotecting, hs, hsignature]
  | false =>
      rw [or_iff_right Bool.false_ne_true, ← henvelope]
      -- with protection off nothing is taken for sealed, and the rest as with protection on
      have hopen : s.classifyWhole bytes ≠ .sealedModule := by
        intro hsealed
        have hon := (classify_eq_sealedModule_iff.mp hsealed).1
        rw [hs] at hon
        cases hon
      constructor
      · intro hsame hsealed
        exact hopen (hsame ▸ hsealed)
      · intro hunsealed
        simp only [classifyWhole, classify, hs, hprotecting, hsignature, Bool.true_and,
          Bool.false_and] at hunsealed ⊢
        split
        · rename_i hmatch
          exact absurd (if_pos hmatch) hunsealed
        · rfl

end Sealer

/-! ## Settings in the current directory -/

theorem Disk.fileText_of_lookup {disk : Disk} {path text : String}
    (h : disk.lookup path = .ok (.file (Utf8.encode text))) : disk.fileText path = .ok text := by
  have hbytes : disk.fileBytes path = .ok (Utf8.encode text) := bind_eq_ok.mpr ⟨_, h, rfl⟩
  refine bind_eq_ok.mpr ⟨_, hbytes, ?_⟩
  rw [Utf8.decode?_encode]

theorem Invocation.configured_of_file {invocation : Invocation} {disk : Disk} {text : String}
    {settings : Settings} (hunnamed : invocation.settingsPath = none)
    (hfile : disk.lookup defaultSettingsPath = .ok (.file (Utf8.encode text)))
    (hread : Settings.ofText text = .ok settings) : invocation.configured disk = .ok settings := by
  have hpresent : disk.isPresent defaultSettingsPath = true := by
    rw [Disk.isPresent, hfile]
    rfl
  simp only [configured, hunnamed, hpresent, if_true, settingsFrom, Settings.ofFile,
    Disk.fileText_of_lookup hfile, hread]

namespace Command

/-! ## Reports -/

namespace Inspection

/-- The report on a file that holds some bytes. -/
def whole (sealer : Sealer) (file : String × Bytes) : Inspection where
  path := file.1
  length := file.2.length
  content := sealer.classifyWhole file.2
  declared := (Envelope.parse? file.2).map (·.payloadLength.toNat)

theorem inspected {disk : Disk} {file : String × Bytes}
    (h : disk.lookup file.1 = .ok (.file file.2)) (sealer : Sealer) :
    ofFile sealer disk file.1 = .ok (whole sealer file) := by
  obtain ⟨later, hfill⟩ := Reader.fill_of_calm
    (Reader.steadyAt_of_steadyPlan (Reader.steadyPlan_of_bytes file.2) Envelope.size).calm
  simp only [ofFile, Disk.openFile_of_lookup h, hfill, Envelope.parse?_take_size]
  rfl

theorem declared_whole_eq_some_iff {sealer : Sealer} {file : String × Bytes} {length : Nat} :
    (whole sealer file).declared = some length ↔
      Envelope.Opens file.2 ∧ length = Envelope.declared file.2 := by
  constructor
  · intro h
    obtain ⟨envelope, henvelope, rfl⟩ := Option.map_eq_some_iff.mp h
    exact ⟨Envelope.opens_of_parse? henvelope, Envelope.payloadLength_of_parse? henvelope⟩
  · rintro ⟨hopens, rfl⟩
    have henvelope := Envelope.parse?_of_opens hopens
    exact Option.map_eq_some_iff.mpr
      ⟨_, henvelope, Envelope.payloadLength_of_parse? henvelope⟩

/-- A report tells the path and the length of a file, and the length that its
bytes declare if they open with an envelope.  An application with the settings
can load the file, if its engine is content with it, and whatever the engine, the
report tells the content that the file is loaded with just if protection is on
or the file is not a whole envelope.  What the interpreter loads is always of
the content that is told. -/
structure Tells (settings : Settings) (disk : Disk) (file : String × Bytes)
    (report : Inspection) : Prop where
  path : report.path = file.1
  length : report.length = file.2.length
  declared : ∀ length, report.declared = some length ↔
    Envelope.Opens file.2 ∧ length = Envelope.declared file.2
  loadable : ∀ unit chunk blockSize, ∃ compilation, Compilation.ofFileBy (.contented unit)
    (settings.sealer Sealer.defaultSignature) disk file.1 chunk blockSize = .ok compilation
  content : ∀ engine chunk blockSize compilation, Compilation.ofFileBy engine
      (settings.sealer Sealer.defaultSignature) disk file.1 chunk blockSize = .ok compilation →
    (report.content = compilation.content ↔
      settings.flags.protection = true ∨ ¬ Envelope.Encloses file.2)
  interpreted : ∀ interpreter chunk blockSize compilation, (Compilation.ofFile interpreter
      (settings.sealer Sealer.defaultSignature) disk file.1 chunk blockSize).1 = .ok compilation →
    report.content = compilation.content

theorem tells_whole {disk : Disk} {file : String × Bytes}
    (h : disk.lookup file.1 = .ok (.file file.2)) (settings : Settings) :
    Tells settings disk file (whole settings.sealingSealer file) := by
  have hcontent : ∀ engine chunk blockSize compilation, Compilation.ofFileBy engine
      (settings.sealer Sealer.defaultSignature) disk file.1 chunk blockSize = .ok compilation →
      ((whole settings.sealingSealer file).content = compilation.content ↔
        settings.flags.protection = true ∨ ¬ Envelope.Encloses file.2) := by
    intro engine chunk blockSize compilation hcompiled
    rw [Compilation.loaded_as h hcompiled]
    exact Sealer.classifyWhole_eq_iff (s := settings.sealer Sealer.defaultSignature)
      (isProtecting_sealingSealer settings) rfl file.2
  refine ⟨rfl, rfl, fun _ => declared_whole_eq_some_iff, ?_, hcontent, ?_⟩
  · intro unit
    exact Compilation.exists_ofFileBy_contented h unit _
  · intro interpreter chunk blockSize compilation hcompiled
    have hfits := Compilation.not_encloses_of_ofFile h hcompiled
    rw [Compilation.ofFile_eq_ofFileBy] at hcompiled
    exact (hcontent _ _ _ _ hcompiled).mpr hfits

end Inspection

theorem run_inspect {invocation : Invocation} {disk : Disk} {settings : Settings}
    {files : List (String × Bytes)} {asJson : Bool}
    (hsettings : invocation.settings disk = .ok settings)
    (hcommand : invocation.command = .inspect (files.map Prod.fst) asJson)
    (hfiles : ∀ file ∈ files, disk.lookup file.1 = .ok (.file file.2)) :
    let reports := files.map (Inspection.whole settings.sealingSealer)
    invocation.run disk = .done disk
      (if asJson then Inspection.listToJson reports ++ "\n"
        else String.join (reports.map Inspection.line)) := by
  intro reports
  have hreports : (files.map Prod.fst).mapM (Inspection.ofFile settings.sealingSealer disk) =
      .ok reports := by
    rw [List.mapM_map]
    exact mapM_eq_ok fun file hmem => Inspection.inspected (hfiles file hmem) _
  simp only [Invocation.run, hsettings, hcommand, inspectFiles, hreports]
  cases asJson with
  | true => rfl
  | false => rfl

/-! ## The law of inspecting -/

/-- Under any settings, inspecting regular files succeeds, changes nothing, and
prints a report on each of them, in their order.  Its content is the one that
the file is loaded with, unless protection is off and the file is a whole
envelope. -/
theorem inspecting_fits_loading_iff {invocation : Invocation} {disk : Disk} {settings : Settings}
    {files : List (String × Bytes)} {asJson : Bool}
    (hsettings : invocation.settings disk = .ok settings)
    (hcommand : invocation.command = .inspect (files.map Prod.fst) asJson)
    (hfiles : ∀ file ∈ files, disk.lookup file.1 = .ok (.file file.2)) :
    ∃ reports : List Inspection,
      invocation.run disk = .done disk
        (if asJson then Inspection.listToJson reports ++ "\n"
          else String.join (reports.map Inspection.line)) ∧
      List.Forall₂ (Inspection.Tells settings disk) files reports := by
  refine ⟨_, run_inspect hsettings hcommand hfiles, ?_⟩
  rw [List.forall₂_map_right_iff, List.forall₂_same]
  exact fun file hmem => Inspection.tells_whole (hfiles file hmem) settings

/-- The law at a sealed module and at one cut short, with the settings that are
taken if there are none. -/
theorem inspecting_fits_loading_with_protection :
    let bytes : Bytes := Envelope.magic ++ [1, 0, 0, 0, 7]
    let disk := (Disk.scratch.set ["tmp", "work", "m"] (.file bytes)).set ["tmp", "work", "n"]
      (.file bytes.dropLast)
    let invocation : Invocation := { command := .inspect ["m", "n"] true }
    ∃ sealedReport cutReport compilation,
      invocation.run disk =
        .done disk (Inspection.listToJson [sealedReport, cutReport] ++ "\n") ∧
      Compilation.ofFileBy (.contented ⟨none, none, "", []⟩) (Settings.sealer {} 0x1B) disk "m" none
        1 = .ok compilation ∧
      sealedReport.length = 13 ∧ sealedReport.declared = some 1 ∧
      sealedReport.content = compilation.content ∧ cutReport.declared = some 1 := by
  intro bytes disk invocation
  have hsealedFile : disk.lookup "m" = .ok (.file bytes) := rfl
  have hcutFile : disk.lookup "n" = .ok (.file bytes.dropLast) := rfl
  have hfiles : ∀ file ∈ [("m", bytes), ("n", bytes.dropLast)],
      disk.lookup file.1 = .ok (.file file.2) :=
    List.forall_mem_cons.mpr ⟨hsealedFile, List.forall_mem_singleton.mpr hcutFile⟩
  have hsettings : invocation.settings disk = .ok {} := rfl
  obtain ⟨reports, hrun, hreports⟩ := inspecting_fits_loading_iff hsettings rfl hfiles
  obtain ⟨sealedReport, reports, hsealed, hrest, rfl⟩ := List.forall₂_cons_left_iff.mp hreports
  obtain ⟨cutReport, reports, hcut, hnil, rfl⟩ := List.forall₂_cons_left_iff.mp hrest
  obtain rfl := List.forall₂_nil_left_iff.mp hnil
  obtain ⟨compilation, hcompiled⟩ := hsealed.loadable ⟨none, none, "", []⟩ none 1
  have hsealedOpens : Envelope.Opens bytes := ⟨by decide, by decide⟩
  have hcutOpens : Envelope.Opens bytes.dropLast := ⟨by decide, by decide⟩
  exact ⟨sealedReport, cutReport, compilation, hrun, hcompiled, hsealed.length,
    (hsealed.declared 1).mpr ⟨hsealedOpens, rfl⟩, (hsealed.content _ _ _ _ hcompiled).mpr (.inl rfl),
    (hcut.declared 1).mpr ⟨hcutOpens, rfl⟩⟩

/-- With protection off, an empty sealed module is reported as sealed and loaded
as a script. -/
theorem inspecting_misses_unprotected_envelope :
    let disk := (Disk.scratch.set ["tmp", "work", "modseal.toml"]
      (.file (Utf8.encode "[flags]\nprotected = false\n"))).set ["tmp", "work", "m"]
      (.file (Envelope.magic ++ [0, 0, 0, 0]))
    let invocation : Invocation := { command := .inspect ["m"] true }
    ∃ settings report compilation,
      invocation.settings disk = .ok settings ∧
      invocation.run disk = .done disk (Inspection.listToJson [report] ++ "\n") ∧
      Compilation.ofFileBy (.contented ⟨none, none, "", []⟩)
        (settings.sealer Sealer.defaultSignature) disk "m" none settings.blockSize =
          .ok compilation ∧
      report.content = .sealedModule ∧ compilation.content = .source := by
  intro disk invocation
  obtain ⟨text, htext⟩ : ∃ text, "[flags]\nprotected = false\n" = text := ⟨_, rfl⟩
  obtain ⟨settings, hunprotected⟩ : ∃ settings : Settings, settings = { flags := ⟨false, true⟩ } :=
    ⟨_, rfl⟩
  have hread : Settings.ofText text = .ok settings := by
    rw [← htext, hunprotected]
    decide +kernel
  have hlookup : disk.lookup Invocation.defaultSettingsPath = .ok (.file (Utf8.encode text)) :=
    htext ▸ rfl
  have hsettings : invocation.settings disk = .ok settings := by
    rw [Invocation.settings, invocation.configured_of_file rfl hlookup hread, hunprotected]
    rfl
  have hfile : disk.lookup "m" = .ok (.file (Envelope.magic ++ [0, 0, 0, 0])) := rfl
  have hfiles : ∀ file ∈ [("m", Envelope.magic ++ [0, 0, 0, 0])],
      disk.lookup file.1 = .ok (.file file.2) := List.forall_mem_singleton.mpr hfile
  have hrun := run_inspect hsettings rfl hfiles
  obtain ⟨compilation, hcompiled⟩ := Compilation.exists_ofFileBy_contented hfile
    ⟨none, none, "", []⟩ (settings.sealer Sealer.defaultSignature) none settings.blockSize
  refine ⟨settings, _, compilation, hsettings, hrun, hcompiled, ?_, ?_⟩
  · have hencloses : Envelope.Encloses (Envelope.magic ++ [0, 0, 0, 0]) := by decide
    exact (Sealer.classifyWhole_eq_sealedModule_iff (isProtecting_sealingSealer settings)).mpr
      hencloses
  · rw [Compilation.loaded_as hfile hcompiled, hunprotected]
    rfl

end Command

end SealedModules
