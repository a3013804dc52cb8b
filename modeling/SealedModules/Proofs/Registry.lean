/-
# The registry follows the history

A history of a world is a list of events: requests, in any order and with any
success, and between them changes from outside, to the disk, the assets, the
interpreter and the finders after the registry.  What the world has
registered is a function of the history, and no more of it counts than the
preloads that succeeded: a name is mapped to what the last of them compiled.

One step says what a request does to a world (`perform_effect`): it registers
the module it compiled if it is a preload that succeeds, and leaves what is
registered alone otherwise.  The run over a history is an induction on it
(`get?_after`).
-/
import SealedModules.Proofs.Dictionary
import SealedModules.Proofs.Loading
import SealedModules.Request

namespace SealedModules

theorem Settings.eq_of_check {settings checked : Settings} (h : settings.check = .ok checked) :
    settings = checked := by
  unfold check at h
  split at h
  · cases h
  · exact Except.ok.inj h

/-! ## Histories -/

/-- Something that happens to a world. -/
inductive Event where
  | request (request : Request)
  /-- whatever is not in the hands of the module system changes -/
  | outside (disk : Disk) (interpreter : Interpreter) (assets : Option AssetSource)
      (later : Chain)

/-- The name a request compiles a module for, if it is a preload. -/
def Request.preloadName? : Request → Option String
  | .preloadBytes name _ => some name
  | .preloadFile name _ => some name
  | .preloadAsset name _ => some name
  | .preloadAndDump name _ _ => some name
  | _ => none

/-- The flags an event sets, if it does. -/
def Event.flags? : Event → Option Flags
  | .request (.setFlags flags) => some flags
  | _ => none

theorem Event.flags?_of_preloadName? {request : Request} {name : String}
    (h : request.preloadName? = some name) : (Event.request request).flags? = none := by
  cases request with
  | setFlags flags => cases h
  | _ => rfl

namespace World

/-- The world with other finders after the registry. -/
def withLater (w : World) (later : Chain) : World :=
  { w with system := { w.system with chain := .registry :: later } }

/-- The world after an event. -/
def meet (w : World) : Event → World
  | .request request => (w.perform request).2
  | .outside disk interpreter assets later =>
    ({ disk, system := { w.system with interpreter, assets } } : World).withLater later

/-- The world after a history. -/
def after (w : World) (events : List Event) : World := events.foldl meet w

/-- The module that a preload compiles. -/
def compiled? (w : World) : Request → Option CompiledModule
  | .preloadBytes name bytes => (w.compileBytes name bytes).1.toOption
  | .preloadFile name path => (w.compileFile path (some name)).1.toOption
  | .preloadAsset name path => (w.compileAsset path (some name)).1.toOption
  | .preloadAndDump name path _ => (w.compileAsset path (some name)).1.toOption
  | _ => none

/-- The request is a preload under `name` that succeeds. -/
structure Preloads (w : World) (request : Request) (name : String) : Prop where
  named : request.preloadName? = some name
  succeeds : ∀ error, (w.perform request).1 ≠ .failed error

/-- A preload under `name` succeeds in a history. -/
def PreloadsIn (w : World) (events : List Event) (name : String) : Prop :=
  ∃ before request later, events = before ++ .request request :: later ∧
    (w.after before).Preloads request name

/-- The last preload under `name` that succeeds in a history compiles `unit`. -/
def LastPreloads (w : World) (events : List Event) (name : String) (unit : CompiledModule) :
    Prop :=
  ∃ before request later, events = before ++ .request request :: later ∧
    (w.after before).Preloads request name ∧
    (w.after before).compiled? request = some unit ∧
    ¬ ((w.after before).meet (.request request)).PreloadsIn later name

/-! ## What a request leaves alone -/

/-- The registry, the flags and the first finder are as they were. -/
structure Keeps (w w' : World) : Prop where
  registry : w'.system.registry = w.system.registry
  flags : w'.flags = w.flags
  chain : ∀ later, w.system.chain = .registry :: later →
    ∃ later', w'.system.chain = .registry :: later'

theorem keeps_refl (w : World) : w.Keeps w := ⟨rfl, rfl, fun later h => ⟨later, h⟩⟩

theorem Keeps.trans {w w' w'' : World} (h : w.Keeps w') (h' : w'.Keeps w'') : w.Keeps w'' := by
  refine ⟨h'.registry.trans h.registry, h'.flags.trans h.flags, fun later hchain => ?_⟩
  obtain ⟨later', hchain'⟩ := h.chain later hchain
  exact h'.chain later' hchain'

theorem keeps_withInterpreter (w : World) (interpreter : Interpreter) :
    w.Keeps (w.withInterpreter interpreter) :=
  ⟨rfl, rfl, fun later h => ⟨later, h⟩⟩

theorem keeps_compileBytes (w : World) (name : String) (bytes : Bytes) :
    w.Keeps (w.compileBytes name bytes).2 :=
  keeps_withInterpreter w _

theorem keeps_compileFile (w : World) (path : String) (chunk : Option String) :
    w.Keeps (w.compileFile path chunk).2 :=
  keeps_withInterpreter w _

theorem keeps_compileAsset (w : World) (path : String) (chunk : Option String) :
    w.Keeps (w.compileAsset path chunk).2 := by
  unfold compileAsset
  split
  · exact keeps_refl w
  · exact keeps_withInterpreter w _

theorem keeps_dumpTo (w : World) (unit : CompiledModule) (path : String) :
    w.Keeps (w.dumpTo unit path).2 :=
  ⟨rfl, rfl, fun later h => ⟨later, h⟩⟩

theorem keeps_call (w : World) (unit : CompiledModule) : w.Keeps (w.call unit).2 :=
  keeps_withInterpreter w _

/-- The first finder of a chain is not lost in a search. -/
theorem search_registry (later : Chain) (name : String) (around : Surroundings)
    (interpreter : Interpreter) :
    ∃ later', (Chain.search (.registry :: later) name around interpreter).chain =
      .registry :: later' := by
  unfold Chain.search Chain.searchFrom
  split
  · exact ⟨later, rfl⟩
  · exact ⟨later, rfl⟩
  · exact ⟨_, rfl⟩

theorem keeps_resolve (w : World) (name : String) : w.Keeps (w.resolve name).2 := by
  refine ⟨rfl, rfl, fun later hchain => ?_⟩
  obtain ⟨later', hsearch⟩ := search_registry later name w.surroundings w.system.interpreter
  exact ⟨later', by rw [resolve, hchain]; exact hsearch⟩

theorem keeps_require (w : World) (name : String) : w.Keeps (w.require name).2 := by
  have hkeeps := keeps_resolve w name
  unfold require
  split
  · rename_i error w' hresolve
    rwa [hresolve] at hkeeps
  · rename_i resolved w' hresolve
    rw [hresolve] at hkeeps
    exact hkeeps.trans (keeps_call w' resolved.unit)

/-! ## What a request does -/

/-- All that a request can do to what is registered and to the flags. -/
inductive Effect (w : World) (request : Request) : Answer × World → Prop where
  | fails {error : ModuleError} {w' : World} (h : w.Keeps w')
      (hflags : (Event.request request).flags? = none) : Effect w request (.failed error, w')
  | answers {answer : Answer} {w' : World} (h : w.Keeps w')
      (hanswer : ∀ error, answer ≠ .failed error) (hname : request.preloadName? = none)
      (hflags : (Event.request request).flags? = none) : Effect w request (answer, w')
  | sets {flags : Flags} (hrequest : request = .setFlags flags) :
      Effect w request (.flags flags, w.setFlags flags)
  | registers {answer : Answer} {w' : World} {name : String} {unit : CompiledModule}
      (h : w.Keeps w') (hanswer : ∀ error, answer ≠ .failed error)
      (hname : request.preloadName? = some name) (hunit : w.compiled? request = some unit) :
      Effect w request (answer, w'.register name unit)

theorem effect_beside {α : Type} {w : World} {request : Request} (answer : α → Answer)
    (hanswer : ∀ a error, answer a ≠ .failed error) (hname : request.preloadName? = none)
    (hflags : (Event.request request).flags? = none) {result : Except ModuleError α × World}
    (h : w.Keeps result.2) : Effect w request (Answer.beside answer result) := by
  obtain ⟨outcome, w'⟩ := result
  cases outcome with
  | error error => exact .fails h hflags
  | ok a => exact .answers h (hanswer a) hname hflags

theorem effect_registerResult {w : World} {request : Request} {name : String}
    (hname : request.preloadName? = some name)
    {result : Except ModuleError CompiledModule × World} (h : w.Keeps result.2)
    (hunit : w.compiled? request = result.1.toOption) :
    Effect w request (Answer.beside (fun _ => .done) (registerResult name result)) := by
  obtain ⟨outcome, w'⟩ := result
  cases outcome with
  | error error => exact .fails h (Event.flags?_of_preloadName? hname)
  | ok unit => exact .registers h (fun _ => nofun) hname hunit

theorem effect_preloadAndDump (w : World) (name path out : String) :
    Effect w (.preloadAndDump name path out)
      (Answer.beside .dumped (w.preloadAndDump name path out)) := by
  have hcompile := keeps_compileAsset w path (some name)
  unfold preloadAndDump
  split
  · rename_i error w₁ hasset
    rw [hasset] at hcompile
    exact .fails hcompile rfl
  · rename_i unit w₁ hasset
    rw [hasset] at hcompile
    have hunit : w.compiled? (.preloadAndDump name path out) = some unit := by
      rw [compiled?, hasset]
      rfl
    have hdump := hcompile.trans (keeps_dumpTo w₁ unit out)
    split
    · rename_i error w₂ hout
      rw [hout] at hdump
      exact .fails hdump rfl
    · rename_i report w₂ hout
      rw [hout] at hdump
      exact .registers hdump (fun _ => nofun) rfl hunit

theorem perform_effect (w : World) (request : Request) :
    Effect w request (w.perform request) := by
  cases request with
  | flags => exact .answers (keeps_refl w) (fun _ => nofun) rfl rfl
  | setFlags flags => exact .sets rfl
  | loadBytes name bytes =>
      exact effect_beside .loaded (fun _ _ => nofun) rfl rfl (keeps_compileBytes w name bytes)
  | loadFile path chunk =>
      exact effect_beside .loaded (fun _ _ => nofun) rfl rfl (keeps_compileFile w path chunk)
  | loadAsset path chunk =>
      exact effect_beside .loaded (fun _ _ => nofun) rfl rfl (keeps_compileAsset w path chunk)
  | preloadBytes name bytes =>
      exact effect_registerResult rfl (keeps_compileBytes w name bytes) rfl
  | preloadFile name path =>
      exact effect_registerResult rfl (keeps_compileFile w path (some name)) rfl
  | preloadAsset name path =>
      exact effect_registerResult rfl (keeps_compileAsset w path (some name)) rfl
  | preloadAndDump name path out => exact effect_preloadAndDump w name path out
  | isPreloaded name => exact .answers (keeps_refl w) (fun _ => nofun) rfl rfl
  | preloadedNames => exact .answers (keeps_refl w) (fun _ => nofun) rfl rfl
  | resolve name =>
      exact effect_beside .resolved (fun _ _ => nofun) rfl rfl (keeps_resolve w name)
  | require name =>
      exact effect_beside .value (fun _ _ => nofun) rfl rfl (keeps_require w name)
  | call unit => exact effect_beside .value (fun _ _ => nofun) rfl rfl (keeps_call w unit)
  | dumpTo unit path =>
      exact effect_beside .dumped (fun _ _ => nofun) rfl rfl (keeps_dumpTo w unit path)
  | dumpBytes unit =>
      have hkeeps : w.Keeps (w.dumpBytes unit, w).2 := keeps_refl w
      exact effect_beside .bytes (fun _ _ => nofun) rfl rfl hkeeps

/-- An operation that fails leaves what is registered and the flags as they
were. -/
theorem keeps_of_failed {w : World} {request : Request} {error : ModuleError}
    (h : (w.perform request).1 = .failed error) : w.Keeps (w.perform request).2 := by
  have heffect := w.perform_effect request
  generalize w.perform request = result at h heffect
  cases heffect with
  | fails hkeeps => exact hkeeps
  | answers hkeeps => exact hkeeps
  | sets => cases h
  | registers _ hanswer => exact absurd h (hanswer error)

/-! ## One step -/

theorem registry_of_preloads {w : World} {request : Request} {name : String}
    (h : w.Preloads request name) :
    ∃ unit, w.compiled? request = some unit ∧
      (w.perform request).2.system.registry = w.system.registry.insert name unit := by
  obtain ⟨hnamed, hsucceeds⟩ := h
  have heffect := w.perform_effect request
  generalize w.perform request = result at hsucceeds heffect
  cases heffect with
  | fails => exact absurd rfl (hsucceeds _)
  | answers _ _ hname => rw [hname] at hnamed; cases hnamed
  | sets hrequest => rw [hrequest] at hnamed; cases hnamed
  | registers hkeeps _ hname hunit =>
      rw [hname] at hnamed
      obtain rfl := Option.some.inj hnamed
      exact ⟨_, hunit, by rw [← hkeeps.registry]; rfl⟩

/-- Whatever is not a preload under a name that succeeds leaves the name
alone. -/
theorem get?_of_not_preloads {w : World} {request : Request} {name : String}
    (h : ¬ w.Preloads request name) :
    (w.perform request).2.system.registry.get? name = w.system.registry.get? name := by
  have heffect := w.perform_effect request
  have hsucceeds (hnamed : request.preloadName? = some name) :
      ¬ ∀ error, (w.perform request).1 ≠ .failed error := fun hall => h ⟨hnamed, hall⟩
  generalize w.perform request = result at hsucceeds heffect
  cases heffect with
  | fails hkeeps => rw [hkeeps.registry]
  | answers hkeeps => rw [hkeeps.registry]
  | sets => rfl
  | @registers _ w' other unit hkeeps hanswer hname _ =>
      have hother : name ≠ other := by
        rintro rfl
        exact hsucceeds hname hanswer
      show (w'.system.registry.insert other unit).get? name = _
      rw [Dictionary.get?_insert, if_neg hother, hkeeps.registry]

theorem get?_meet {w : World} {event : Event} {name : String} {unit : CompiledModule} :
    (w.meet event).system.registry.get? name = some unit ↔
      (∃ request, event = .request request ∧ w.Preloads request name ∧
        w.compiled? request = some unit) ∨
      (∀ request, event = .request request → ¬ w.Preloads request name) ∧
        w.system.registry.get? name = some unit := by
  cases event with
  | outside disk interpreter assets later =>
      constructor
      · intro h
        exact .inr ⟨fun _ hevent => (nomatch hevent), h⟩
      · rintro (⟨_, hevent, -⟩ | ⟨-, h⟩)
        · cases hevent
        · exact h
  | request request =>
      by_cases hpreloads : w.Preloads request name
      · obtain ⟨compiled, hcompiled, hregistry⟩ := registry_of_preloads hpreloads
        show (w.perform request).2.system.registry.get? name = some unit ↔ _
        rw [hregistry, Dictionary.get?_insert, if_pos rfl]
        constructor
        · intro h
          exact .inl ⟨request, rfl, hpreloads, hcompiled.trans h⟩
        · rintro (⟨_, hevent, -, hunit⟩ | ⟨hnot, -⟩)
          · obtain rfl := Event.request.inj hevent
            exact hcompiled.symm.trans hunit
          · exact absurd hpreloads (hnot request rfl)
      · show (w.perform request).2.system.registry.get? name = some unit ↔ _
        rw [get?_of_not_preloads hpreloads]
        constructor
        · intro h
          refine .inr ⟨fun _ hevent => ?_, h⟩
          obtain rfl := Event.request.inj hevent
          exact hpreloads
        · rintro (⟨_, hevent, hpreloads', -⟩ | ⟨-, h⟩)
          · obtain rfl := Event.request.inj hevent
            exact absurd hpreloads' hpreloads
          · exact h

theorem flags_meet (w : World) (event : Event) :
    (w.meet event).flags = event.flags?.getD w.flags := by
  cases event with
  | outside => rfl
  | request request =>
      have heffect := w.perform_effect request
      show (w.perform request).2.flags = _
      generalize w.perform request = result at heffect
      cases heffect with
      | fails hkeeps hflags => rw [hflags, hkeeps.flags]; rfl
      | answers hkeeps _ _ hflags => rw [hflags, hkeeps.flags]; rfl
      | sets hrequest => rw [hrequest]; rfl
      | registers hkeeps _ hname =>
          rw [Event.flags?_of_preloadName? hname, Option.getD_none, ← hkeeps.flags]
          rfl

theorem chain_meet {w : World} {later : Chain} (h : w.system.chain = .registry :: later)
    (event : Event) : ∃ later', (w.meet event).system.chain = .registry :: later' := by
  cases event with
  | outside disk interpreter assets later => exact ⟨later, rfl⟩
  | request request =>
      have heffect := w.perform_effect request
      show ∃ later', (w.perform request).2.system.chain = _
      generalize w.perform request = result at heffect
      cases heffect with
      | fails hkeeps => exact hkeeps.chain later h
      | answers hkeeps => exact hkeeps.chain later h
      | sets => exact ⟨later, h⟩
      | registers hkeeps => exact hkeeps.chain later h

/-! ## A whole history -/

theorem after_cons (w : World) (event : Event) (events : List Event) :
    w.after (event :: events) = (w.meet event).after events := rfl

theorem preloadsIn_nil {w : World} {name : String} : ¬ w.PreloadsIn [] name := by
  rintro ⟨before, request, later, hsplit, -⟩
  exact List.append_ne_nil_of_right_ne_nil before (List.cons_ne_nil _ later) hsplit.symm

theorem preloadsIn_cons {w : World} {event : Event} {events : List Event} {name : String} :
    w.PreloadsIn (event :: events) name ↔
      (∃ request, event = .request request ∧ w.Preloads request name) ∨
        (w.meet event).PreloadsIn events name := by
  constructor
  · rintro ⟨before, request, later, hsplit, h⟩
    cases before with
    | nil =>
        obtain ⟨rfl, rfl⟩ := List.cons.inj hsplit
        exact .inl ⟨request, rfl, h⟩
    | cons first before =>
        obtain ⟨rfl, rfl⟩ := List.cons.inj hsplit
        exact .inr ⟨before, request, later, rfl, h⟩
  · rintro (⟨request, rfl, h⟩ | ⟨before, request, later, rfl, h⟩)
    · exact ⟨[], request, events, rfl, h⟩
    · exact ⟨event :: before, request, later, rfl, h⟩

theorem lastPreloads_cons {w : World} {event : Event} {events : List Event} {name : String}
    {unit : CompiledModule} :
    w.LastPreloads (event :: events) name unit ↔
      (∃ request, event = .request request ∧ w.Preloads request name ∧
        w.compiled? request = some unit ∧ ¬ (w.meet event).PreloadsIn events name) ∨
        (w.meet event).LastPreloads events name unit := by
  constructor
  · rintro ⟨before, request, later, hsplit, h⟩
    cases before with
    | nil =>
        obtain ⟨rfl, rfl⟩ := List.cons.inj hsplit
        exact .inl ⟨request, rfl, h⟩
    | cons first before =>
        obtain ⟨rfl, rfl⟩ := List.cons.inj hsplit
        exact .inr ⟨before, request, later, rfl, h⟩
  · rintro (⟨request, rfl, h⟩ | ⟨before, request, later, rfl, h⟩)
    · exact ⟨[], request, events, rfl, h⟩
    · exact ⟨event :: before, request, later, rfl, h⟩

/-- After a history a name is mapped to what the last preload under it
compiled, or as before if there was none. -/
theorem get?_after {w : World} {events : List Event} {name : String} {unit : CompiledModule} :
    (w.after events).system.registry.get? name = some unit ↔
      w.LastPreloads events name unit ∨
        ¬ w.PreloadsIn events name ∧ w.system.registry.get? name = some unit := by
  induction events generalizing w with
  | nil =>
      have hnone : ¬ w.LastPreloads [] name unit := by
        rintro ⟨before, request, later, hsplit, h, -⟩
        exact preloadsIn_nil ⟨before, request, later, hsplit, h⟩
      constructor
      · intro h
        exact .inr ⟨preloadsIn_nil, h⟩
      · rintro (hlast | ⟨-, h⟩)
        · exact absurd hlast hnone
        · exact h
  | cons event events ih =>
      rw [after_cons, ih, lastPreloads_cons, preloadsIn_cons, get?_meet]
      constructor
      · rintro (hlast | ⟨hnot, ⟨request, hevent, hpreloads, hunit⟩ | ⟨hkept, h⟩⟩)
        · exact .inl (.inr hlast)
        · exact .inl (.inl ⟨request, hevent, hpreloads, hunit, hnot⟩)
        · refine .inr ⟨?_, h⟩
          rintro (⟨request, hevent, hpreloads⟩ | hlater)
          · exact hkept request hevent hpreloads
          · exact hnot hlater
      · rintro ((⟨request, hevent, hpreloads, hunit, hnot⟩ | hlast) | ⟨hnot, h⟩)
        · exact .inr ⟨hnot, .inl ⟨request, hevent, hpreloads, hunit⟩⟩
        · exact .inl hlast
        · refine .inr ⟨fun hlater => hnot (.inr hlater), .inr ⟨?_, h⟩⟩
          intro request hevent hpreloads
          exact hnot (.inl ⟨request, hevent, hpreloads⟩)

theorem exists_lastPreloads {w : World} {events : List Event} {name : String}
    (h : w.PreloadsIn events name) : ∃ unit, w.LastPreloads events name unit := by
  induction events generalizing w with
  | nil => exact absurd h preloadsIn_nil
  | cons event events ih =>
      by_cases hlater : (w.meet event).PreloadsIn events name
      · obtain ⟨unit, hlast⟩ := ih hlater
        exact ⟨unit, lastPreloads_cons.mpr (.inr hlast)⟩
      · rcases preloadsIn_cons.mp h with ⟨request, hevent, hpreloads⟩ | hlater'
        · obtain ⟨unit, hunit, -⟩ := registry_of_preloads hpreloads
          exact ⟨unit, lastPreloads_cons.mpr (.inl ⟨request, hevent, hpreloads, hunit, hlater⟩)⟩
        · exact absurd hlater' hlater

theorem flags_after (w : World) (events : List Event) :
    (w.after events).flags = (events.filterMap Event.flags?).getLast?.getD w.flags := by
  induction events generalizing w with
  | nil => rfl
  | cons event events ih =>
      rw [after_cons, ih, flags_meet]
      cases hflags : event.flags? with
      | none => rw [List.filterMap_cons_none hflags, Option.getD_none]
      | some flags =>
          rw [List.filterMap_cons_some hflags, List.getLast?_cons, Option.getD_some,
            Option.getD_some]

theorem chain_after {w : World} {later : Chain} (h : w.system.chain = .registry :: later)
    (events : List Event) : ∃ later', (w.after events).system.chain = .registry :: later' := by
  induction events generalizing w later with
  | nil => exact ⟨later, h⟩
  | cons event events ih =>
      obtain ⟨later', hchain⟩ := chain_meet h event
      exact ih hchain

/-! ## The law of the registry -/

theorem build_eq_ok {settings : Settings} {installation : Installation} {system : ModuleSystem}
    (h : ModuleSystem.build settings installation = .ok system) :
    system.registry = Dictionary.empty ∧ system.sealer.flags = settings.flags ∧
      ∃ later, system.chain = .registry :: later := by
  unfold ModuleSystem.build at h
  split at h
  · cases h
  · rename_i checked hcheck
    obtain rfl := Except.ok.inj h
    exact ⟨rfl, congrArg Settings.flags (Settings.eq_of_check hcheck).symm, _, rfl⟩

theorem search_of_registered {around : Surroundings} {name : String} {unit : CompiledModule}
    (h : around.registry.get? name = some unit) (later : Chain) (interpreter : Interpreter) :
    Chain.search (.registry :: later) name around interpreter =
      ⟨.ok ⟨unit, ":preload:", "preload"⟩, interpreter, .registry :: later⟩ := by
  have hask : Finder.ask .registry name around interpreter =
      (.found unit Finder.registryOrigin, interpreter) := by
    rw [Finder.ask, Finder.askRegistry, h]
  rw [Chain.search, Chain.searchFrom, hask]
  rfl

/-- A registered module is found at once, whatever the other finders are: the
world is then as it was, its interpreter and its finders included. -/
theorem resolve_of_registered {w : World} {name : String} {unit : CompiledModule}
    (h : w.system.registry.get? name = some unit) (later : Chain) :
    (w.withLater later).resolve name =
      (.ok ⟨unit, ":preload:", "preload"⟩, w.withLater later) := by
  have hsearch : (w.withLater later).system.chain.search name (w.withLater later).surroundings
      (w.withLater later).system.interpreter = _ := search_of_registered h later _
  rw [resolve, hsearch]
  rfl

/-- After any history of a system that was built, a name is registered exactly
if a preload under it succeeded, and then for what the last one compiled. -/
theorem registry_follows_history {settings : Settings} {installation : Installation}
    {system : ModuleSystem} (h : ModuleSystem.build settings installation = .ok system)
    (disk : Disk) (events : List Event) :
    let start : World := ⟨system, disk⟩
    let w := start.after events
    (∀ name unit, w.system.registry.get? name = some unit ↔ start.LastPreloads events name unit) ∧
      (∀ name, name ∈ w.preloadedNames ↔ start.PreloadsIn events name) ∧
      (w.preloadedNames.map Utf8.encode).Pairwise (· < ·) ∧
      (∀ name, w.isPreloaded name = true ↔ name ∈ w.preloadedNames) ∧
      w.flags = (events.filterMap Event.flags?).getLast?.getD settings.flags ∧
      (∃ later, w = w.withLater later) ∧
      (∀ name unit, w.system.registry.get? name = some unit → ∀ later,
        (w.withLater later).resolve name =
          (.ok ⟨unit, ":preload:", "preload"⟩, w.withLater later)) ∧
      ∀ request error, (w.perform request).1 = .failed error →
        (w.perform request).2.system.registry = w.system.registry ∧
          (w.perform request).2.flags = w.flags := by
  intro start w
  obtain ⟨hregistry, hflags, later, hchain⟩ := build_eq_ok h
  have hget (name : String) (unit : CompiledModule) :
      w.system.registry.get? name = some unit ↔ start.LastPreloads events name unit := by
    rw [get?_after]
    constructor
    · rintro (hlast | ⟨-, hbefore⟩)
      · exact hlast
      · rw [show start.system.registry = Dictionary.empty from hregistry,
          Dictionary.get?_empty] at hbefore
        cases hbefore
    · exact .inl
  refine ⟨hget, ?_, Dictionary.pairwise_encode_keys _, fun _ => Dictionary.contains_iff_mem_keys,
    ?_, ?_, fun name unit => resolve_of_registered, ?_⟩
  · intro name
    refine Dictionary.mem_keys_iff.trans ⟨?_, ?_⟩
    · rintro ⟨unit, hunit⟩
      obtain ⟨before, request, more, hsplit, hpreloads, -⟩ := (hget name unit).mp hunit
      exact ⟨before, request, more, hsplit, hpreloads⟩
    · intro hpreloads
      obtain ⟨unit, hlast⟩ := exists_lastPreloads hpreloads
      exact ⟨unit, (hget name unit).mpr hlast⟩
  · rw [flags_after]
    exact congrArg (Option.getD _) hflags
  · obtain ⟨rest, hrest⟩ := chain_after (w := start) hchain events
    exact ⟨rest, by rw [withLater, ← hrest]⟩
  · intro request error hfailed
    have hkeeps := keeps_of_failed hfailed
    exact ⟨hkeeps.registry, hkeeps.flags⟩

theorem fst_registerResult (name : String) (result : Except ModuleError CompiledModule × World) :
    (registerResult name result).1 = result.1.map fun _ => () := by
  obtain ⟨outcome, w⟩ := result
  cases outcome with
  | ok unit => rfl
  | error error => rfl

theorem preloadBytes_of_not_protecting {w : World} (h : w.flags.protection = false)
    (name : String) (bytes : Bytes) :
    w.compiled? (.preloadBytes name bytes) = (Interpreter.read bytes name).toOption ∧
      (w.Preloads (.preloadBytes name bytes) name ↔
        ∃ unit, Interpreter.read bytes name = .ok unit) := by
  have hcompile : (w.compileBytes name bytes).1 =
      (Interpreter.read bytes name).mapError (.rejected name) := by
    have hplain : w.system.sealer.isProtecting = false := h
    have hpayload := payload_of_not_protecting hplain bytes bytes.length
    rw [compileBytes, Compilation.ofBytes_eq, Compilation.outcome, hpayload, Option.getD_some]
    cases Interpreter.read bytes name with
    | ok unit => rfl
    | error message => rfl
  constructor
  · rw [compiled?, hcompile]
    cases Interpreter.read bytes name with
    | ok unit => rfl
    | error message => rfl
  · have hanswer : (w.perform (.preloadBytes name bytes)).1 = .ofOutcome (fun _ => .done)
        (((Interpreter.read bytes name).mapError (.rejected name)).map fun _ => ()) := by
      rw [← hcompile, ← fst_registerResult]
      rfl
    constructor
    · rintro ⟨-, hsucceeds⟩
      cases hread : Interpreter.read bytes name with
      | ok unit => exact ⟨unit, rfl⟩
      | error message =>
          rw [hread] at hanswer
          exact absurd hanswer (hsucceeds _)
    · rintro ⟨unit, hread⟩
      rw [hread] at hanswer
      exact ⟨rfl, fun error hfailed => nomatch hanswer.symm.trans hfailed⟩

/-- A preload that fails after one that succeeded, with protection turned off
before both. -/
theorem registry_follows_two_preloads :
    let script := Utf8.encode "return 7"
    let first : Request := .preloadBytes "m" script
    let second : Request := .preloadBytes "m" (Utf8.encode "oops")
    let events : List Event :=
      [.request (.setFlags ⟨false, true⟩), .request first, .request second]
    ∃ system, ModuleSystem.build {} {} = .ok system ∧
      let w := (World.mk system Disk.scratch).after events
      w.system.registry.get? "m" = some ⟨some 7, none, "m", script⟩ ∧ w.flags = ⟨false, true⟩ ∧
        (w.preloadedNames.map Utf8.encode).Pairwise (· < ·) ∧ "m" ∈ w.preloadedNames := by
  intro script first second events
  have hread : Interpreter.read script "m" = .ok ⟨some 7, none, "m", script⟩ := by decide
  have hfail : (Interpreter.read (Utf8.encode "oops") "m").toOption = none := by decide
  obtain ⟨system, hbuild⟩ : ∃ system, ModuleSystem.build {} {} = .ok system := ⟨_, rfl⟩
  let start : World := ⟨system, Disk.scratch⟩
  let w₁ := start.meet (.request (.setFlags ⟨false, true⟩))
  let w₂ := w₁.meet (.request first)
  have hflags₁ : w₁.flags.protection = false := rfl
  have hflags₂ : w₂.flags.protection = false := by
    rw [flags_meet]
    rfl
  obtain ⟨hget, -, hsorted, -, hflags, -⟩ := registry_follows_history hbuild Disk.scratch events
  obtain ⟨hcompiled, hpreloads⟩ := preloadBytes_of_not_protecting hflags₁ "m" script
  have hlast : start.LastPreloads events "m" ⟨some 7, none, "m", script⟩ := by
    refine ⟨[.request (.setFlags ⟨false, true⟩)], first, [.request second], rfl,
      hpreloads.mpr ⟨_, hread⟩, ?_, fun hlater => ?_⟩
    · exact hcompiled.trans (congrArg Except.toOption hread)
    · rcases preloadsIn_cons.mp hlater with ⟨request, hevent, hagain⟩ | hnone
      · obtain rfl := Event.request.inj hevent
        obtain ⟨unit, hunit⟩ := (preloadBytes_of_not_protecting hflags₂ "m" _).2.mp hagain
        rw [hunit] at hfail
        cases hfail
      · exact preloadsIn_nil hnone
  have hfound := (hget "m" _).mpr hlast
  exact ⟨system, hbuild, hfound, hflags, hsorted, Dictionary.mem_keys_iff.mpr ⟨_, hfound⟩⟩

end World

end SealedModules
