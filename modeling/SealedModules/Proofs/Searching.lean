/-
# What a search does

A finder misses if it says that there is nothing to be found.  A search goes
through the finders that miss, hands on the interpreter from each to the
next, and stops at the first one that does not; `misses?` is this run over a
chain in which every finder misses.  So a chain is cut in front of the finder
that stops a search (`missing_or_cut`), everything before it is passed over
(`searchFrom_append`), and everything after it stays as it was.

How often a probe is asked follows from a single search by induction on the
searches: counting does not change what a finder answers, so that a probe is
reached or not regardless of the searches before.
-/
import SealedModules.Finding.Chain

namespace SealedModules

/-! ## Finders that were asked -/

namespace Finder

/-- How often a probe was asked. -/
def asked? : Finder → Option Nat
  | .probe _ asked => some asked
  | _ => none

@[simp] theorem ask_noteAsked (finder : Finder) : finder.noteAsked.ask = finder.ask := by
  cases finder <;> rfl

theorem asked?_noteAsked (finder : Finder) :
    finder.noteAsked.asked? = finder.asked?.map (· + 1) := by
  cases finder <;> rfl

end Finder

namespace Chain

variable (name : String) (around : Surroundings)

/-- What the finders of a chain say if each of them says that there is
nothing, and the interpreter they leave. -/
def misses? : Chain → Interpreter → Option (List String × Interpreter)
  | [], interpreter => some ([], interpreter)
  | finder :: later, interpreter =>
    match finder.ask name around interpreter with
    | (.nothing message, interpreter) =>
      (misses? later interpreter).map fun (messages, last) => (message :: messages, last)
    | _ => none

/-- The attempts that are listed for finders that said these messages. -/
def attempts (chain : Chain) (messages : List String) : List String :=
  List.zipWith attempt chain messages

variable {name around}

theorem misses?_cons {finder : Finder} {later : Chain} {interpreter : Interpreter}
    {said : List String × Interpreter}
    (h : misses? name around (finder :: later) interpreter = some said) :
    ∃ message reached messages last,
      finder.ask name around interpreter = (.nothing message, reached) ∧
        misses? name around later reached = some (messages, last) ∧
        said = (message :: messages, last) := by
  rw [misses?] at h
  split at h
  · rename_i message reached hask
    obtain ⟨⟨messages, last⟩, hlater, hsaid⟩ := Option.map_eq_some_iff.mp h
    exact ⟨message, reached, messages, last, hask, hlater, hsaid.symm⟩
  · cases h

theorem length_of_misses? {chain : Chain} {interpreter last : Interpreter}
    {messages : List String} (h : misses? name around chain interpreter = some (messages, last)) :
    messages.length = chain.length := by
  induction chain generalizing interpreter messages with
  | nil =>
      obtain ⟨rfl, -⟩ := Prod.mk.inj (Option.some.inj h)
      rfl
  | cons finder later ih =>
      obtain ⟨message, reached, said, final, -, hlater, heq⟩ := misses?_cons h
      obtain ⟨rfl, rfl⟩ := Prod.mk.inj heq
      exact congrArg (· + 1) (ih hlater)

theorem searchFrom_append {before : Chain} {interpreter reached : Interpreter}
    {messages : List String}
    (h : misses? name around before interpreter = some (messages, reached)) (rest : Chain)
    (listed : List String) :
    let later := searchFrom name around rest (listed ++ before.attempts messages) reached
    searchFrom name around (before ++ rest) listed interpreter =
      { later with chain := before.map .noteAsked ++ later.chain } := by
  induction before generalizing interpreter messages listed with
  | nil =>
      obtain ⟨rfl, rfl⟩ := Prod.mk.inj (Option.some.inj h)
      rw [attempts, List.zipWith_nil_left, List.append_nil]
      rfl
  | cons finder before ih =>
      obtain ⟨message, next, said, last, hask, hbefore, heq⟩ := misses?_cons h
      obtain ⟨rfl, rfl⟩ := Prod.mk.inj heq
      have hrest := ih hbefore (listed ++ [attempt finder message])
      rw [List.append_assoc] at hrest
      intro later
      rw [List.cons_append, searchFrom, hask]
      simp only [hrest]
      rfl

theorem missing_or_cut (name : String) (around : Surroundings) (chain : Chain)
    (interpreter : Interpreter) :
    (∃ messages last, misses? name around chain interpreter = some (messages, last)) ∨
      ∃ before finder later messages reached,
        chain = before ++ finder :: later ∧
          misses? name around before interpreter = some (messages, reached) ∧
          ∀ message last, finder.ask name around reached ≠ (.nothing message, last) := by
  induction chain generalizing interpreter with
  | nil => exact .inl ⟨[], interpreter, rfl⟩
  | cons finder chain ih =>
      obtain ⟨answer, next, hask⟩ : ∃ answer next,
          finder.ask name around interpreter = (answer, next) := ⟨_, _, rfl⟩
      cases answer with
      | found unit origin =>
          refine .inr ⟨[], finder, chain, [], interpreter, rfl, rfl, ?_⟩
          rw [hask]
          exact nofun
      | failed error =>
          refine .inr ⟨[], finder, chain, [], interpreter, rfl, rfl, ?_⟩
          rw [hask]
          exact nofun
      | nothing message =>
          have hcons (later : Chain) : misses? name around (finder :: later) interpreter =
              (misses? name around later next).map fun (messages, last) =>
                (message :: messages, last) := by
            rw [misses?, hask]
          rcases ih next with ⟨messages, last, hall⟩ | ⟨before, stop, later, messages, reached, hcut⟩
          · exact .inl ⟨message :: messages, last, by rw [hcons, hall]; rfl⟩
          · obtain ⟨rfl, hbefore, hstop⟩ := hcut
            exact .inr ⟨finder :: before, stop, later, message :: messages, reached, rfl,
              by rw [hcons, hbefore]; rfl, hstop⟩

/-! ## How a search ends -/

/-- How a search through a chain ends: at the first finder that does not miss,
with what it says, or after all of them. -/
inductive Ends (name : String) (around : Surroundings) (chain : Chain)
    (interpreter : Interpreter) : Search → Prop where
  /-- every finder before misses, and this one finds the module -/
  | found {before later : Chain} {finder : Finder} {messages : List String}
      {reached last : Interpreter} {unit : CompiledModule} {origin : String}
      (hchain : chain = before ++ finder :: later)
      (hbefore : misses? name around before interpreter = some (messages, reached))
      (hask : finder.ask name around reached = (.found unit origin, last)) :
      Ends name around chain interpreter
        ⟨.ok ⟨unit, origin, finder.label⟩, last,
          before.map .noteAsked ++ finder.noteAsked :: later⟩
  /-- every finder before misses, and this one fails -/
  | failed {before later : Chain} {finder : Finder} {messages : List String}
      {reached last : Interpreter} {error : ModuleError}
      (hchain : chain = before ++ finder :: later)
      (hbefore : misses? name around before interpreter = some (messages, reached))
      (hask : finder.ask name around reached = (.failed error, last)) :
      Ends name around chain interpreter
        ⟨.error error, last, before.map .noteAsked ++ finder.noteAsked :: later⟩
  /-- all finders miss, and each of them is listed with what it said -/
  | exhausted {messages : List String} {last : Interpreter}
      (hall : misses? name around chain interpreter = some (messages, last))
      (hlength : messages.length = chain.length) :
      Ends name around chain interpreter
        ⟨.error (.exhausted name (chain.attempts messages)), last, chain.map .noteAsked⟩

theorem ends_search (chain : Chain) (name : String) (around : Surroundings)
    (interpreter : Interpreter) :
    Ends name around chain interpreter (chain.search name around interpreter) := by
  rcases missing_or_cut name around chain interpreter with
    ⟨messages, last, hall⟩ | ⟨before, finder, later, messages, reached, rfl, hbefore, hstop⟩
  · have hsearch : chain.search name around interpreter =
        ⟨.error (.exhausted name (chain.attempts messages)), last, chain.map .noteAsked⟩ := by
      have hpassed := searchFrom_append hall [] []
      rw [List.append_nil] at hpassed
      rw [search, hpassed, searchFrom, List.append_nil]
      rfl
    rw [hsearch]
    exact .exhausted hall (length_of_misses? hall)
  · obtain ⟨answer, last, hask⟩ : ∃ answer last,
        finder.ask name around reached = (answer, last) := ⟨_, _, rfl⟩
    rw [search, searchFrom_append hbefore, searchFrom, hask]
    cases answer with
    | found unit origin => exact .found rfl hbefore hask
    | failed error => exact .failed rfl hbefore hask
    | nothing message => exact absurd hask (hstop message last)

/-! ## Counting -/

/-- A search that is asked for. -/
structure Query where
  name : String
  around : Surroundings
  interpreter : Interpreter

/-- Every finder of a chain misses. -/
def allMiss (chain : Chain) (query : Query) : Bool :=
  (misses? query.name query.around chain query.interpreter).isSome

/-- The chain after some searches. -/
def searchAll (chain : Chain) (queries : List Query) : Chain :=
  queries.foldl (fun chain query =>
    (chain.search query.name query.around query.interpreter).chain) chain

/-- A search changes no answer. -/
theorem map_ask_search (chain : Chain) (name : String) (around : Surroundings)
    (interpreter : Interpreter) :
    (chain.search name around interpreter).chain.map Finder.ask = chain.map Finder.ask := by
  have hasked : Finder.ask ∘ Finder.noteAsked = Finder.ask := funext Finder.ask_noteAsked
  have hends := ends_search chain name around interpreter
  generalize chain.search name around interpreter = search at hends
  cases hends with
  | found hchain hbefore hask =>
      rw [hchain]
      simp [hasked]
  | failed hchain hbefore hask =>
      rw [hchain]
      simp [hasked]
  | exhausted hall hlength => simp [hasked]

/-- What a chain misses depends on the answers of its finders alone. -/
theorem misses?_congr {chain other : Chain} (h : chain.map Finder.ask = other.map Finder.ask) :
    misses? name around chain = misses? name around other := by
  induction chain generalizing other with
  | nil =>
      obtain rfl := List.map_eq_nil_iff.mp h.symm
      rfl
  | cons finder later ih =>
      obtain ⟨first, rest, rfl, hfirst, hrest⟩ := List.map_eq_cons_iff.mp h.symm
      have hlater := ih hrest.symm
      funext interpreter
      rw [misses?, misses?, hlater, hfirst]

/-- A search asks a finder once if every finder before it misses, and not at
all if one does not. -/
theorem asked?_searchFrom (chain : Chain) (listed : List String) (interpreter : Interpreter)
    (k : Nat) :
    (searchFrom name around chain listed interpreter).chain[k]?.bind Finder.asked? =
      (chain[k]?.bind Finder.asked?).map
        (· + if (misses? name around (chain.take k) interpreter).isSome then 1 else 0) := by
  induction chain generalizing listed interpreter k with
  | nil => rfl
  | cons finder later ih =>
      obtain ⟨answer, next, hask⟩ : ∃ answer next,
          finder.ask name around interpreter = (answer, next) := ⟨_, _, rfl⟩
      cases k with
      | zero =>
          have hfirst : (searchFrom name around (finder :: later) listed interpreter).chain[0]? =
              some finder.noteAsked := by
            rw [searchFrom, hask]
            cases answer <;> rfl
          rw [hfirst]
          exact finder.asked?_noteAsked
      | succ k =>
          rw [searchFrom, hask, List.take_succ_cons, misses?, hask]
          cases answer with
          | found unit origin => simp
          | failed error => simp
          | nothing message =>
              have hlater := ih (listed ++ [attempt finder message]) next k
              simpa using hlater

theorem asked?_searchAll (chain : Chain) (queries : List Query) (k : Nat) :
    (chain.searchAll queries)[k]?.bind Finder.asked? =
      (chain[k]?.bind Finder.asked?).map (· + queries.countP (allMiss (chain.take k))) := by
  -- on the searches; none of them changes which finders miss in a later one
  induction queries generalizing chain with
  | nil => simp [searchAll]
  | cons query queries ih =>
      let after := (chain.search query.name query.around query.interpreter).chain
      have hmap : (after.take k).map Finder.ask = (chain.take k).map Finder.ask := by
        rw [List.map_take, List.map_take, map_ask_search]
      have hmiss : allMiss (after.take k) = allMiss (chain.take k) := by
        funext later
        rw [allMiss, allMiss, misses?_congr hmap]
      have hone : after[k]?.bind Finder.asked? = (chain[k]?.bind Finder.asked?).map
          (· + if allMiss (chain.take k) query then 1 else 0) := asked?_searchFrom chain [] _ k
      show (after.searchAll queries)[k]?.bind Finder.asked? = _
      rw [ih after, hone, hmiss, Option.map_map, List.countP_cons]
      congr 1
      funext asked
      show asked + _ + _ = asked + _
      omega

/-! ## The law of searching -/

/-- A search asks the finders in order up to the first that does not miss, and
none after it: it ends with what that finder says, or with the list of all
attempts.  Over any searches, a probe is asked as often as every finder before
it misses. -/
theorem search_follows_order (chain : Chain) (name : String) (around : Surroundings)
    (interpreter : Interpreter) (queries : List Query) :
    Ends name around chain interpreter (chain.search name around interpreter) ∧
      (∀ messages, (ModuleError.exhausted name (chain.attempts messages)).message =
        "module '" ++ name ++ "' not found:" ++ String.join (List.zipWith
          (fun finder message => "\n\t[" ++ finder.label ++ "] " ++ message) chain messages)) ∧
      ∀ k, (chain.searchAll queries)[k]?.bind Finder.asked? =
        (chain[k]?.bind Finder.asked?).map (· + queries.countP (allMiss (chain.take k))) := by
  refine ⟨ends_search chain name around interpreter, ?_, asked?_searchAll chain queries⟩
  intro messages
  rfl

end Chain

end SealedModules
