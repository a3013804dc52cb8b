/-
# What a history leaves behind

The answer of an operation depends on the sealer, the block size, the disk and
the assets, and unless it looks a module up by name on nothing else: not on
what was registered, not on which finders were asked, and not on the
interpreter with its counters (`perform_of_similar`).  Of these the settings
fix the cipher, the first byte of compiled modules and the block size for good
(`form_after`).  So two histories that end with the same flags, disks that are
alike and the same assets cannot be told apart by what is answered next,
whatever failed in either.

What a history does leave is counted: the loads and the calls of the
interpreter, each as often as it was used (`interpreter_after`).
-/
import SealedModules.Proofs.Alike
import SealedModules.Proofs.Registry
import SealedModules.Proofs.Uses

namespace SealedModules

/-! ## Compiling and dumping do not look at the rest -/

namespace Compilation

variable (given given' : Interpreter) (sealer : Sealer)

theorem fst_ofFeed (feed : StreamFeed) (chunk path : String) :
    (ofFeed given feed chunk path).1 = (ofFeed given' feed chunk path).1 := by
  unfold ofFeed
  simp only [Interpreter.load_eq]
  split
  · rfl
  · split
    · rfl
    · rfl

theorem fst_ofFile {disk disk' : Disk} {path : String}
    (h : disk.openFile path = disk'.openFile path) (chunk : Option String) (blockSize : Nat) :
    (ofFile given sealer disk path chunk blockSize).1 =
      (ofFile given' sealer disk' path chunk blockSize).1 := by
  unfold ofFile
  rw [h]
  cases disk'.openFile path with
  | error fault => rfl
  | ok opened => exact fst_ofFeed given given' _ _ path

theorem fst_ofAsset {disk disk' : Disk} {source source' : AssetSource} {path : String}
    (h : source.fetch disk path = source'.fetch disk' path) (chunk : Option String)
    (blockSize : Nat) :
    (ofAsset given sealer disk source path chunk blockSize).1 =
      (ofAsset given' sealer disk' source' path chunk blockSize).1 := by
  unfold ofAsset
  rw [h]
  cases source'.fetch disk' path with
  | error error => rfl
  | ok asset => exact fst_ofFeed given given' _ _ path

end Compilation

theorem Dump.toFile_of_alike {disk disk' : Disk} (h : disk.Alike disk') (sealer : Sealer)
    (unit : CompiledModule) (blockSize : Nat) (path : String) :
    (toFile sealer unit blockSize disk path).1 = (toFile sealer unit blockSize disk' path).1 ∧
      (toFile sealer unit blockSize disk path).2.Alike
        (toFile sealer unit blockSize disk' path).2 := by
  cases htarget : disk.target path with
  | error fault =>
      have hfails {d : Disk} (hd : d.target path = .error fault) :
          d.create path = .error fault := by
        rw [Disk.create, hd]
        rfl
      rw [toFile, toFile, hfails htarget, hfails (h.target path ▸ htarget)]
      exact ⟨rfl, h⟩
  | ok location =>
      have htarget' : disk'.target path = .ok location := h.target path ▸ htarget
      simp only [toFile, Disk.create_eq_ok_iff.mpr ⟨htarget, rfl⟩,
        Disk.create_eq_ok_iff.mpr ⟨htarget', rfl⟩, Disk.output, Disk.room, Disk.store,
        Disk.limits_set, Disk.set_set, h.limits]
      have halike := (Disk.target_eq_ok_iff.mp htarget).alike_set h
      split
      · exact ⟨rfl, halike _⟩
      · exact ⟨rfl, halike _⟩
      · exact ⟨rfl, halike _⟩

/-- Whether a request looks at what is registered. -/
def Request.looksUp : Request → Bool
  | .isPreloaded _ => true
  | .preloadedNames => true
  | .resolve _ => true
  | .require _ => true
  | _ => false

namespace World

/-! ## Worlds that answer alike -/

/-- The asset a world has at a path, if it has assets at all. -/
def fetch? (w : World) (path : String) : Option (Except AssetError Asset) :=
  w.system.assets.map fun source => source.fetch w.disk path

/-- The worlds read and write modules in the same form, on disks that are
alike. -/
structure Similar (w w' : World) : Prop where
  sealer : w.system.sealer = w'.system.sealer
  blockSize : w.system.blockSize = w'.system.blockSize
  disk : w.disk.Alike w'.disk

/-- The operations came to the same, and left worlds that are similar. -/
def Agree {α : Type} (result result' : α × World) : Prop :=
  result.1 = result'.1 ∧ result.2.Similar result'.2

namespace Similar

variable {w w' : World} (h : w.Similar w')

include h

theorem withInterpreter (interpreter interpreter' : Interpreter) :
    (w.withInterpreter interpreter).Similar (w'.withInterpreter interpreter') :=
  ⟨h.sealer, h.blockSize, h.disk⟩

theorem register (name : String) (unit : CompiledModule) :
    (w.register name unit).Similar (w'.register name unit) :=
  ⟨h.sealer, h.blockSize, h.disk⟩

theorem setFlags (flags : Flags) : (w.setFlags flags).Similar (w'.setFlags flags) := by
  refine ⟨?_, h.blockSize, h.disk⟩
  show { w.system.sealer with flags } = { w'.system.sealer with flags }
  rw [h.sealer]

theorem compileBytes (name : String) (bytes : Bytes) :
    Agree (w.compileBytes name bytes) (w'.compileBytes name bytes) := by
  refine ⟨?_, h.withInterpreter _ _⟩
  show Except.map _ (Compilation.ofBytes _ _ _ _).1 = Except.map _ (Compilation.ofBytes _ _ _ _).1
  rw [h.sealer, Compilation.ofBytes_eq, Compilation.ofBytes_eq]

theorem compileFile (path : String) (chunk : Option String) :
    Agree (w.compileFile path chunk) (w'.compileFile path chunk) := by
  refine ⟨?_, h.withInterpreter _ _⟩
  show Except.map _ (Compilation.ofFile _ _ _ _ _ _).1 =
    Except.map _ (Compilation.ofFile _ _ _ _ _ _).1
  rw [h.sealer, h.blockSize,
    Compilation.fst_ofFile _ w'.system.interpreter _ (h.disk.openFile path)]

theorem compileAsset (hassets : ∀ path, w.fetch? path = w'.fetch? path) (path : String)
    (chunk : Option String) : Agree (w.compileAsset path chunk) (w'.compileAsset path chunk) := by
  have hfetch := hassets path
  unfold fetch? at hfetch
  unfold World.compileAsset
  cases hsource : w.system.assets with
  | none =>
      rw [hsource] at hfetch
      rw [Option.map_eq_none_iff.mp hfetch.symm]
      exact ⟨rfl, h⟩
  | some source =>
      rw [hsource] at hfetch
      obtain ⟨source', hsource', hsame⟩ := Option.map_eq_some_iff.mp hfetch.symm
      rw [hsource']
      refine ⟨?_, h.withInterpreter _ _⟩
      show Except.map _ (Compilation.ofAsset _ _ _ _ _ _ _).1 =
        Except.map _ (Compilation.ofAsset _ _ _ _ _ _ _).1
      rw [h.sealer, h.blockSize, Compilation.fst_ofAsset _ w'.system.interpreter _ hsame.symm]

theorem dumpTo (unit : CompiledModule) (path : String) :
    Agree (w.dumpTo unit path) (w'.dumpTo unit path) := by
  obtain ⟨hresult, hdisk⟩ :=
    Dump.toFile_of_alike h.disk w.system.sealer unit w.system.blockSize path
  refine ⟨?_, h.sealer, h.blockSize, ?_⟩
  · show _ = (Dump.toFile w'.system.sealer unit w'.system.blockSize w'.disk path).1
    rw [← h.sealer, ← h.blockSize]
    exact hresult
  · show Disk.Alike _ (Dump.toFile w'.system.sealer unit w'.system.blockSize w'.disk path).2
    rw [← h.sealer, ← h.blockSize]
    exact hdisk

end Similar

variable {w w' : World}

theorem Agree.beside {α : Type} {result result' : Except ModuleError α × World}
    (h : Agree result result') (answer : α → Answer) :
    Agree (Answer.beside answer result) (Answer.beside answer result') :=
  ⟨congrArg (Answer.ofOutcome answer) h.1, h.2⟩

theorem Agree.registerResult {result result' : Except ModuleError CompiledModule × World}
    (h : Agree result result') (name : String) :
    Agree (registerResult name result) (registerResult name result') := by
  obtain ⟨outcome, after⟩ := result
  obtain ⟨outcome', after'⟩ := result'
  obtain ⟨rfl, hafter⟩ : outcome = outcome' ∧ after.Similar after' := h
  cases outcome with
  | error error => exact ⟨rfl, hafter⟩
  | ok unit => exact ⟨rfl, hafter.register name unit⟩

theorem Similar.preloadAndDump (h : w.Similar w')
    (hassets : ∀ path, w.fetch? path = w'.fetch? path) (name path out : String) :
    Agree (w.preloadAndDump name path out) (w'.preloadAndDump name path out) := by
  have hcompile := h.compileAsset hassets path (some name)
  unfold World.preloadAndDump
  generalize w.compileAsset path (some name) = result at hcompile
  generalize w'.compileAsset path (some name) = result' at hcompile
  obtain ⟨outcome, after⟩ := result
  obtain ⟨outcome', after'⟩ := result'
  obtain ⟨rfl, hafter⟩ : outcome = outcome' ∧ after.Similar after' := hcompile
  cases outcome with
  | error error => exact ⟨rfl, hafter⟩
  | ok unit =>
      have hdump := hafter.dumpTo unit out
      simp only
      generalize after.dumpTo unit out = dumped at hdump
      generalize after'.dumpTo unit out = dumped' at hdump
      obtain ⟨report, last⟩ := dumped
      obtain ⟨report', last'⟩ := dumped'
      obtain ⟨rfl, hlast⟩ : report = report' ∧ last.Similar last' := hdump
      cases report with
      | error error => exact ⟨rfl, hlast⟩
      | ok report => exact ⟨rfl, hlast.register name unit⟩

/-- Similar worlds with the same assets answer alike, unless they are asked for
what is registered, and are similar afterwards. -/
theorem perform_of_similar (h : w.Similar w') (hassets : ∀ path, w.fetch? path = w'.fetch? path)
    {request : Request} (hrequest : request.looksUp = false) :
    Agree (w.perform request) (w'.perform request) := by
  cases request with
  | flags =>
      have hflags : w.flags = w'.flags := congrArg Sealer.flags h.sealer
      exact ⟨congrArg Answer.flags hflags, h⟩
  | setFlags flags => exact ⟨rfl, h.setFlags flags⟩
  | loadBytes name bytes => exact (h.compileBytes name bytes).beside _
  | loadFile path chunk => exact (h.compileFile path chunk).beside _
  | loadAsset path chunk => exact (h.compileAsset hassets path chunk).beside _
  | preloadBytes name bytes => exact ((h.compileBytes name bytes).registerResult name).beside _
  | preloadFile name path => exact ((h.compileFile path (some name)).registerResult name).beside _
  | preloadAsset name path =>
      exact ((h.compileAsset hassets path (some name)).registerResult name).beside _
  | preloadAndDump name path out => exact (h.preloadAndDump hassets name path out).beside _
  | isPreloaded name => cases hrequest
  | preloadedNames => cases hrequest
  | resolve name => cases hrequest
  | require name => cases hrequest
  | call unit => exact ⟨rfl, h.withInterpreter _ _⟩
  | dumpTo unit path => exact (h.dumpTo unit path).beside _
  | dumpBytes unit =>
      refine ⟨?_, h⟩
      show Answer.ofOutcome _ (w.dumpBytes unit) = Answer.ofOutcome _ (w'.dumpBytes unit)
      rw [dumpBytes, dumpBytes, h.sealer, h.blockSize]

/-! ## One preload that saves -/

/-- All that a preload that saves can do: the asset is not compiled, or the
module is not dumped, or both are done and it is registered. -/
inductive Saves (w : World) (name path out : String) : Except ModuleError DumpReport × World → Prop
    where
  | uncompiled {error : ModuleError} {after : World}
      (h : w.compileAsset path (some name) = (.error error, after)) :
      Saves w name path out (.error error, after)
  | undumped {unit : CompiledModule} {error : ModuleError} {compiled after : World}
      (h : w.compileAsset path (some name) = (.ok unit, compiled))
      (hdump : compiled.dumpTo unit out = (.error error, after)) :
      Saves w name path out (.error error, after)
  | saved {unit : CompiledModule} {report : DumpReport} {compiled dumped : World}
      (h : w.compileAsset path (some name) = (.ok unit, compiled))
      (hdump : compiled.dumpTo unit out = (.ok report, dumped)) :
      Saves w name path out (.ok report, dumped.register name unit)

theorem saves_preloadAndDump (w : World) (name path out : String) :
    w.Saves name path out (w.preloadAndDump name path out) := by
  unfold preloadAndDump
  split
  · rename_i error after hasset
    exact .uncompiled hasset
  · rename_i unit compiled hasset
    split
    · rename_i error after hdump
      exact .undumped hasset hdump
    · rename_i report dumped hdump
      exact .saved hasset hdump

/-! ## What no operation changes -/

/-- What the settings fix for good: the cipher, the first byte of compiled
modules, and the block size. -/
def form (w : World) : Substitution × UInt8 × Nat :=
  (w.system.sealer.cipher, w.system.sealer.signature, w.system.blockSize)

/-- All finders do nothing to the interpreter but use it. -/
def Proper (w : World) : Prop := ∀ finder ∈ w.system.chain, finder.Proper

/-- The form is as it was, and proper finders are as proper. -/
structure Stays (w w' : World) : Prop where
  form : w'.form = w.form
  proper : w.Proper → w'.Proper

theorem stays_refl (w : World) : w.Stays w := ⟨rfl, id⟩

theorem Stays.trans {w'' : World} (h : w.Stays w') (h' : w'.Stays w'') : w.Stays w'' :=
  ⟨h'.form.trans h.form, fun hproper => h'.proper (h.proper hproper)⟩

theorem stays_withInterpreter (w : World) (interpreter : Interpreter) :
    w.Stays (w.withInterpreter interpreter) := ⟨rfl, id⟩

theorem stays_compileAsset (w : World) (path : String) (chunk : Option String) :
    w.Stays (w.compileAsset path chunk).2 := by
  unfold compileAsset
  split
  · exact stays_refl w
  · exact stays_withInterpreter w _

theorem Stays.registerResult {result : Except ModuleError CompiledModule × World}
    (h : w.Stays result.2) (name : String) : w.Stays (registerResult name result).2 := by
  obtain ⟨outcome, after⟩ := result
  cases outcome with
  | error error => exact h
  | ok unit => exact ⟨h.form, h.proper⟩

theorem stays_preloadAndDump (w : World) (name path out : String) :
    w.Stays (w.preloadAndDump name path out).2 := by
  have hcompile := stays_compileAsset w path (some name)
  have hdumpTo (compiled : World) (unit : CompiledModule) :
      compiled.Stays (compiled.dumpTo unit out).2 := ⟨rfl, id⟩
  have hsaves := saves_preloadAndDump w name path out
  generalize w.preloadAndDump name path out = result at hsaves ⊢
  cases hsaves with
  | uncompiled h => rwa [h] at hcompile
  | @undumped unit error compiled after h hdump =>
      rw [h] at hcompile
      have hlast := hcompile.trans (hdumpTo compiled unit)
      rwa [hdump] at hlast
  | @saved unit report compiled dumped h hdump =>
      rw [h] at hcompile
      have hlast := hcompile.trans (hdumpTo compiled unit)
      rw [hdump] at hlast
      exact ⟨hlast.form, hlast.proper⟩

theorem stays_resolve (w : World) (name : String) : w.Stays (w.resolve name).2 :=
  ⟨rfl, fun hproper => Chain.proper_searchFrom hproper name w.surroundings [] _⟩

theorem stays_require (w : World) (name : String) : w.Stays (w.require name).2 := by
  have hresolve := stays_resolve w name
  unfold require
  split
  · rename_i error after h
    rwa [h] at hresolve
  · rename_i resolved after h
    rw [h] at hresolve
    exact hresolve.trans (stays_withInterpreter after _)

theorem stays_perform (w : World) (request : Request) : w.Stays (w.perform request).2 := by
  cases request with
  | flags => exact stays_refl w
  | setFlags flags => exact ⟨rfl, id⟩
  | loadBytes name bytes => exact stays_withInterpreter w _
  | loadFile path chunk => exact stays_withInterpreter w _
  | loadAsset path chunk => exact stays_compileAsset w path chunk
  | preloadBytes name bytes => exact (stays_withInterpreter w _).registerResult name
  | preloadFile name path => exact (stays_withInterpreter w _).registerResult name
  | preloadAsset name path => exact (stays_compileAsset w path (some name)).registerResult name
  | preloadAndDump name path out => exact stays_preloadAndDump w name path out
  | isPreloaded name => exact stays_refl w
  | preloadedNames => exact stays_refl w
  | resolve name => exact stays_resolve w name
  | require name => exact stays_require w name
  | call unit => exact stays_withInterpreter w _
  | dumpTo unit path => exact ⟨rfl, id⟩
  | dumpBytes unit => exact stays_refl w

theorem form_after (w : World) (events : List Event) : (w.after events).form = w.form := by
  induction events generalizing w with
  | nil => rfl
  | cons event events ih =>
      rw [after_cons, ih]
      cases event with
      | outside disk interpreter assets later => rfl
      | request request => exact (stays_perform w request).form

theorem sealer_eq_of_form (hform : w.form = w'.form) (hflags : w.flags = w'.flags) :
    w.system.sealer = w'.system.sealer := by
  obtain ⟨hcipher, hrest⟩ := Prod.mk.inj hform
  obtain ⟨hsignature, -⟩ := Prod.mk.inj hrest
  show Sealer.mk w.flags w.system.sealer.cipher w.system.sealer.signature =
    Sealer.mk w'.flags w'.system.sealer.cipher w'.system.sealer.signature
  rw [hflags, hcipher, hsignature]

theorem similar_of_form (hform : w.form = w'.form) (hflags : w.flags = w'.flags)
    (hdisk : w.disk.Alike w'.disk) : w.Similar w' :=
  ⟨sealer_eq_of_form hform hflags, (Prod.mk.inj (Prod.mk.inj hform).2).2, hdisk⟩

/-! ## What the interpreter is used for -/

/-- What the interpreter is used for when an asset is compiled. -/
def usesOfAsset (w : World) (path : String) (chunk : Option String) : List Use :=
  match w.system.assets with
  | none => []
  | some source =>
    Compilation.usesOfAsset w.system.sealer w.disk source path chunk w.system.blockSize

/-- What the interpreter is used for by a request, searches apart. -/
def directUses (w : World) : Request → List Use
  | .loadBytes name bytes => Compilation.usesOfBytes w.system.sealer bytes (some name)
  | .loadFile path chunk =>
    Compilation.usesOfFile w.system.sealer w.disk path chunk w.system.blockSize
  | .loadAsset path chunk => w.usesOfAsset path chunk
  | .preloadBytes name bytes => Compilation.usesOfBytes w.system.sealer bytes (some name)
  | .preloadFile name path =>
    Compilation.usesOfFile w.system.sealer w.disk path (some name) w.system.blockSize
  | .preloadAsset name path => w.usesOfAsset path (some name)
  | .preloadAndDump name path _ => w.usesOfAsset path (some name)
  | .call unit => [.call unit]
  | _ => []

/-- What the interpreter is used for by a request. -/
inductive Uses (w : World) : Request → List Use → Prop where
  | direct {request : Request} (hresolve : ∀ name, request ≠ .resolve name)
      (hrequire : ∀ name, request ≠ .require name) : Uses w request (w.directUses request)
  | resolve {name : String} {uses : List Use}
      (h : w.system.chain.Uses name w.surroundings w.system.interpreter uses) :
      Uses w (.resolve name) uses
  | requireFails {name : String} {error : ModuleError} {uses : List Use}
      (h : w.system.chain.Uses name w.surroundings w.system.interpreter uses)
      (herror : (w.resolve name).1 = .error error) : Uses w (.require name) uses
  | require {name : String} {resolved : Resolved} {uses : List Use}
      (h : w.system.chain.Uses name w.surroundings w.system.interpreter uses)
      (hresolved : (w.resolve name).1 = .ok resolved) :
      Uses w (.require name) (uses ++ [.call resolved.unit])

/-- What the interpreter is used for in a history, from outside as well. -/
inductive Makes : World → List Event → List Use → Prop where
  | nil (w : World) : Makes w [] []
  | request {w : World} {request : Request} {events : List Event} {uses more : List Use}
      (h : w.Uses request uses) (hlater : Makes (w.meet (.request request)) events more) :
      Makes w (.request request :: events) (uses ++ more)
  | outside {w : World} {disk : Disk} {interpreter : Interpreter} {assets : Option AssetSource}
      {later : Chain} {events : List Event} {own more : List Use}
      (hown : interpreter = w.system.interpreter.useAll own)
      (hlater : Makes (w.meet (.outside disk interpreter assets later)) events more) :
      Makes w (.outside disk interpreter assets later :: events) (own ++ more)

theorem interpreter_compileAsset (w : World) (path : String) (chunk : Option String) :
    (w.compileAsset path chunk).2.system.interpreter =
      w.system.interpreter.useAll (w.usesOfAsset path chunk) := by
  unfold compileAsset usesOfAsset
  cases w.system.assets with
  | none => rfl
  | some source => exact Compilation.snd_ofAsset _ _ _ _ _ _ _

theorem interpreter_registerResult (name : String)
    (result : Except ModuleError CompiledModule × World) :
    (registerResult name result).2.system.interpreter = result.2.system.interpreter := by
  obtain ⟨outcome, after⟩ := result
  cases outcome with
  | error error => rfl
  | ok unit => rfl

theorem interpreter_preloadAndDump (w : World) (name path out : String) :
    (w.preloadAndDump name path out).2.system.interpreter =
      w.system.interpreter.useAll (w.usesOfAsset path (some name)) := by
  have hdumpTo (compiled : World) (unit : CompiledModule) :
      (compiled.dumpTo unit out).2.system.interpreter = compiled.system.interpreter := rfl
  rw [← interpreter_compileAsset]
  have hsaves := saves_preloadAndDump w name path out
  generalize w.preloadAndDump name path out = result at hsaves ⊢
  cases hsaves with
  | uncompiled h => rw [h]
  | @undumped unit error compiled after h hdump => rw [h, ← hdumpTo compiled unit, hdump]
  | @saved unit report compiled dumped h hdump =>
      rw [h, ← hdumpTo compiled unit, hdump]
      rfl

theorem interpreter_resolve {name : String} {uses : List Use}
    (h : w.system.chain.Uses name w.surroundings w.system.interpreter uses) :
    (w.resolve name).2.system.interpreter = w.system.interpreter.useAll uses :=
  Chain.interpreter_searchFrom h []

theorem interpreter_perform {request : Request} {uses : List Use} (h : w.Uses request uses) :
    (w.perform request).2.system.interpreter = w.system.interpreter.useAll uses := by
  cases h with
  | direct hresolve hrequire =>
      cases request with
      | loadBytes name bytes => exact Compilation.snd_ofBytes _ _ _ _
      | loadFile path chunk => exact Compilation.snd_ofFile _ _ _ _ _ _
      | loadAsset path chunk => exact interpreter_compileAsset w path chunk
      | preloadBytes name bytes =>
          exact (interpreter_registerResult name _).trans (Compilation.snd_ofBytes _ _ _ _)
      | preloadFile name path =>
          exact (interpreter_registerResult name _).trans (Compilation.snd_ofFile _ _ _ _ _ _)
      | preloadAsset name path =>
          exact (interpreter_registerResult name _).trans
            (interpreter_compileAsset w path (some name))
      | preloadAndDump name path out => exact interpreter_preloadAndDump w name path out
      | resolve name => exact absurd rfl (hresolve name)
      | require name => exact absurd rfl (hrequire name)
      | call unit => rfl
      | flags => rfl
      | setFlags flags => rfl
      | isPreloaded name => rfl
      | preloadedNames => rfl
      | dumpTo unit path => rfl
      | dumpBytes unit => rfl
  | resolve h => exact interpreter_resolve h
  | @requireFails name error uses h herror =>
      rw [← interpreter_resolve h]
      show (w.require name).2.system.interpreter = _
      have hresult : w.resolve name = (.error error, (w.resolve name).2) := Prod.ext herror rfl
      rw [World.require, hresult]
  | @require name resolved uses h hresolved =>
      rw [Interpreter.useAll_append, ← interpreter_resolve h]
      show (w.require name).2.system.interpreter = _
      have hresult : w.resolve name = (.ok resolved, (w.resolve name).2) :=
        Prod.ext hresolved rfl
      rw [World.require, hresult]
      rfl

/-- A history leaves the interpreter as its uses make it. -/
theorem interpreter_after {events : List Event} {uses : List Use} (h : w.Makes events uses) :
    (w.after events).system.interpreter = w.system.interpreter.useAll uses := by
  induction h with
  | nil w => rfl
  | request h _ ih =>
      rw [after_cons, ih, Interpreter.useAll_append, ← interpreter_perform h]
      rfl
  | outside hown _ ih =>
      rw [after_cons, ih, Interpreter.useAll_append, ← hown]
      rfl

/-- What happens from outside does nothing to the interpreter but use it, and
brings no finders that do. -/
def Plays : World → List Event → Prop
  | _, [] => True
  | w, .request request :: events => Plays (w.meet (.request request)) events
  | w, .outside disk interpreter assets later :: events =>
    (∃ own, interpreter = w.system.interpreter.useAll own) ∧
      (∀ finder ∈ later, finder.Proper) ∧
        Plays (w.meet (.outside disk interpreter assets later)) events

theorem exists_uses (h : w.Proper) (request : Request) : ∃ uses, w.Uses request uses := by
  have hsearch (name : String) :=
    Chain.exists_uses h name w.surroundings w.system.interpreter
  cases request with
  | resolve name =>
      obtain ⟨uses, huses⟩ := hsearch name
      exact ⟨uses, .resolve huses⟩
  | require name =>
      obtain ⟨uses, huses⟩ := hsearch name
      cases hresolve : (w.resolve name).1 with
      | error error => exact ⟨uses, .requireFails huses hresolve⟩
      | ok resolved => exact ⟨uses ++ [.call resolved.unit], .require huses hresolve⟩
  | _ => exact ⟨_, .direct nofun nofun⟩

theorem exists_makes (h : w.Proper) {events : List Event} (hplays : w.Plays events) :
    ∃ uses, w.Makes events uses := by
  induction events generalizing w with
  | nil => exact ⟨[], .nil w⟩
  | cons event events ih =>
      cases event with
      | request request =>
          obtain ⟨uses, huses⟩ := exists_uses h request
          obtain ⟨more, hmore⟩ := ih ((stays_perform w request).proper h) hplays
          exact ⟨uses ++ more, .request huses hmore⟩
      | outside disk interpreter assets later =>
          obtain ⟨⟨own, hown⟩, hlater, hrest⟩ := hplays
          have hregistry : Finder.registry.Proper := fun _ _ => ⟨[], rfl⟩
          have hproper : (w.meet (.outside disk interpreter assets later)).Proper :=
            List.forall_mem_cons.mpr ⟨hregistry, hlater⟩
          obtain ⟨more, hmore⟩ := ih hproper hrest
          exact ⟨own ++ more, .outside hown hmore⟩

/-! ## The law of histories -/

theorem form_of_build {settings : Settings} {installation : Installation} {system : ModuleSystem}
    (h : ModuleSystem.build settings installation = .ok system) (disk : Disk) :
    (World.mk system disk).form =
        (settings.cipher, Sealer.defaultSignature, settings.blockSize) ∧
      system.interpreter = installation.interpreter := by
  unfold ModuleSystem.build at h
  split at h
  · cases h
  · rename_i checked hcheck
    obtain rfl := Except.ok.inj h
    obtain rfl := Settings.eq_of_check hcheck
    exact ⟨rfl, rfl⟩

/-- Two systems built from the same settings, after any two histories that end
with the same flags, disks that are alike and the same assets, answer every
request alike that does not look up what is registered, and leave disks that
are alike.  After a history the interpreter has counted the loads and the calls
it was used for; and there is such a count as long as hosts, and whoever else
has the interpreter, do nothing but use it. -/
theorem histories_are_forgotten {settings : Settings} {installation installation' : Installation}
    {system system' : ModuleSystem}
    (h : ModuleSystem.build settings installation = .ok system)
    (h' : ModuleSystem.build settings installation' = .ok system') (disk disk' : Disk)
    (events events' : List Event) :
    let start : World := ⟨system, disk⟩
    let w := start.after events
    let w' := (World.mk system' disk').after events'
    (w.flags = w'.flags → w.disk.Alike w'.disk → (∀ path, w.fetch? path = w'.fetch? path) →
      ∀ request, request.looksUp = false →
        (w.perform request).1 = (w'.perform request).1 ∧
          (w.perform request).2.disk.Alike (w'.perform request).2.disk) ∧
    (∀ uses, start.Makes events uses →
      w.system.interpreter.loads = installation.interpreter.loads + uses.countP Use.isLoad ∧
        w.system.interpreter.calls = installation.interpreter.calls + uses.countP Use.isCall) ∧
    (start.Proper → start.Plays events → ∃ uses, start.Makes events uses) := by
  intro start w w'
  obtain ⟨hform, hinterpreter⟩ := form_of_build h disk
  obtain ⟨hform', -⟩ := form_of_build h' disk'
  refine ⟨fun hflags hdisk hassets request hrequest => ?_, fun uses hmakes => ?_,
    fun hproper => exists_makes hproper⟩
  · have hsame : w.form = w'.form := by
      rw [form_after, form_after, hform, hform']
    obtain ⟨hanswer, hsimilar⟩ :=
      perform_of_similar (similar_of_form hsame hflags hdisk) hassets hrequest
    exact ⟨hanswer, hsimilar.disk⟩
  · have hafter : w.system.interpreter = installation.interpreter.useAll uses := by
      rw [← hinterpreter]
      exact interpreter_after hmakes
    rw [hafter]
    exact ⟨Interpreter.loads_useAll _ _, Interpreter.calls_useAll _ _⟩

/-- A script that cannot be read and a module that fails leave no more than
their counts. -/
theorem failures_are_forgotten :
    let script := Utf8.encode "return 7"
    let broken : CompiledModule := ⟨none, some "boom", "b", []⟩
    let events : List Event :=
      [.request (.loadBytes "a" (Utf8.encode "oops")), .request (.call broken)]
    ∃ system, ModuleSystem.build {} {} = .ok system ∧
      let start : World := ⟨system, Disk.scratch⟩
      let w := start.after events
      (start.perform (.call broken)).1 = .failed (.raised "b: boom") ∧
        w.flags = start.flags ∧ w.disk.Alike start.disk ∧
        (∀ path, w.fetch? path = start.fetch? path) ∧
        (w.perform (.loadBytes "m" script)).1 = (start.perform (.loadBytes "m" script)).1 ∧
        w.system.interpreter.loads = 1 ∧ w.system.interpreter.calls = 1 ∧
        start.Proper ∧ start.Plays events ∧ ∃ uses, start.Makes events uses := by
  intro script broken events
  obtain ⟨system, hbuild, hchain⟩ : ∃ system, ModuleSystem.build {} {} = .ok system ∧
      system.chain = [.registry, .file none "lua"] := ⟨_, rfl, rfl⟩
  let start : World := ⟨system, Disk.scratch⟩
  let w := start.after events
  obtain ⟨hanswers, hcounts, hexists⟩ :=
    histories_are_forgotten hbuild hbuild Disk.scratch Disk.scratch events []
  have hflags : w.flags = start.flags := rfl
  have hdisk : w.disk.Alike start.disk := Disk.Alike.refl _
  have hassets : ∀ path, w.fetch? path = start.fetch? path := fun _ => rfl
  have hmakes : start.Makes events _ :=
    .request (.direct nofun nofun) (.request (.direct nofun nofun) (.nil _))
  obtain ⟨hloads, hcalls⟩ := hcounts _ hmakes
  have hproper : start.Proper := by
    intro finder hmem name given
    rw [show start.system.chain = _ from hchain] at hmem
    rcases List.mem_cons.mp hmem with rfl | hmem
    · exact ⟨[], rfl⟩
    · obtain rfl := List.mem_singleton.mp hmem
      exact ⟨[], rfl⟩
  have hplays : start.Plays events := trivial
  obtain ⟨hsame, -⟩ := hanswers hflags hdisk hassets (.loadBytes "m" script) rfl
  exact ⟨system, hbuild, rfl, hflags, hdisk, hassets, hsame, hloads, hcalls, hproper, hplays,
    hexists hproper hplays⟩

end World

end SealedModules
