/-
# When a stream feed has stopped

A stream feed has no block at the end of its data and when a read fails.  What
it then answers depends on how it came there.  An end is marked, and so is a
failure of the lookahead: whatever is asked of such a feed, it hands out
nothing more.  A read that fails in a block leaves nothing but its fault; the
feed stays where it is as long as it keeps the fault, and goes on reading once
that was taken.  So it stays stopped just if its reader has no more to give
(`staysStopped_iff`).

A session logs what a row of requests brings to light, with the faults of the
reads that fail in it.  Each of those faults is kept until it is taken and is
given out once, in the order the reads failed (`met_serve`).
-/
import SealedModules.Proofs.Disturbance

namespace SealedModules

namespace Reader

/-- Every fill fails until one comes to the end. -/
inductive Dry (want : Nat) : Reader → Prop where
  | ends {r later : Reader} (h : r.fill want = (.ok [], later)) : Dry want r
  | fails {r later : Reader} {fault : Fault} (h : r.fill want = (.error fault, later))
      (hlater : Dry want later) : Dry want r

theorem plan_of_fillFrom_error {plan : List ReadStep} {rest : Bytes} {want : Nat} {fault : Fault}
    {later : Reader} (h : fillFrom plan rest want = (.error fault, later)) :
    later.plan.length < plan.length := by
  fun_induction fillFrom plan rest want with
  | case1 => cases h
  | case2 => cases h
  | case3 plan rest want hwant ih => exact Nat.lt_succ_of_lt (ih h)
  | case4 failure plan rest want _ =>
      obtain ⟨-, rfl⟩ := Prod.mk.inj h
      exact Nat.lt_succ_self _
  | case5 => cases h
  | case6 => cases h
  | case7 count plan rest want hwant size hsize failure reader hrec ih =>
      obtain ⟨hfault, rfl⟩ := Prod.mk.inj h
      obtain rfl := Except.error.inj hfault
      exact Nat.lt_succ_of_lt (ih hrec)

end Reader

namespace StreamFeed

/-! ## Sessions -/

/-- What can be asked of a stream feed. -/
inductive Ask where
  | next
  | takeFault
deriving DecidableEq

/-- What comes of a row of requests, and the feed afterwards. -/
structure Session where
  /-- the blocks handed out -/
  blocks : List Bytes
  /-- the faults given out -/
  faults : List Fault
  /-- the faults of the reads that failed -/
  met : List Fault
  feed : StreamFeed

/-- The fault of the read that the next block is asked of, if one is asked and
fails. -/
def meets? (s : StreamFeed) : Option Fault :=
  if s.replay ≠ [] ∨ s.ended ∨ s.fault.isSome then none
  else
    match (s.reader.fill s.blockSize).1 with
    | .error fault => some fault
    | .ok _ => none

/-- A row of requests met by a feed. -/
def serve : List Ask → StreamFeed → Session
  | [], s => ⟨[], [], [], s⟩
  | .next :: asks, s =>
    let later := serve asks (Feed.next s).2
    { later with
      blocks := (Feed.next s).1.toList ++ later.blocks
      met := s.meets?.toList ++ later.met }
  | .takeFault :: asks, s =>
    let later := serve asks s.takeFault.2
    { later with faults := s.takeFault.1.toList ++ later.faults }

/-- Whatever is asked of the feed, it hands out nothing more and counts
nothing more. -/
def StaysStopped (s : StreamFeed) : Prop :=
  ∀ asks, (s.serve asks).blocks = [] ∧ (s.serve asks).feed.consumed = s.consumed

/-! ## One request -/

/-- All that a request for a block can do. -/
inductive Steps (s : StreamFeed) : Option Bytes × StreamFeed → Prop where
  | replays (h : s.replay ≠ []) : Steps s (some s.replay, s.replayed)
  | stops (hreplay : s.replay = []) (h : s.ended = true ∨ s.fault.isSome = true) :
      Steps s (none, s)
  | fails {fault : Fault} {later : Reader} (hreplay : s.replay = []) (hended : s.ended = false)
      (hfault : s.fault = none) (h : s.reader.fill s.blockSize = (.error fault, later)) :
      Steps s (none, { s with reader := later, fault := some fault })
  | ends {later : Reader} (hreplay : s.replay = []) (hended : s.ended = false)
      (hfault : s.fault = none) (h : s.reader.fill s.blockSize = (.ok [], later)) :
      Steps s (none, { s with reader := later, ended := true })
  | gives {block : Bytes} {later : Reader} (hreplay : s.replay = []) (hended : s.ended = false)
      (hfault : s.fault = none) (h : s.reader.fill s.blockSize = (.ok block, later))
      (hblock : block ≠ []) : Steps s (some (s.deliver block), s.afterBlock block later)

theorem next_steps (s : StreamFeed) : s.Steps (Feed.next s) := by
  show s.Steps s.next
  unfold next
  by_cases hreplay : s.replay = []
  · rw [if_neg (not_not_intro hreplay)]
    by_cases hstopped : s.ended = true ∨ s.fault.isSome = true
    · rw [if_pos hstopped]
      exact .stops hreplay hstopped
    · rw [if_neg hstopped]
      obtain ⟨hended, hfault⟩ := not_or.mp hstopped
      have hended : s.ended = false := Bool.not_eq_true _ ▸ hended
      have hfault : s.fault = none := Option.not_isSome_iff_eq_none.mp hfault
      rcases hfill : s.reader.fill s.blockSize with ⟨fault | block, later⟩
      · exact .fails hreplay hended hfault hfill
      · by_cases hblock : block = []
        · subst hblock
          exact .ends hreplay hended hfault hfill
        · simp only [if_neg hblock]
          exact .gives hreplay hended hfault hfill hblock
  · rw [if_pos hreplay]
    exact .replays hreplay

theorem stopped_of_next_eq_none {s t : StreamFeed} (h : Feed.next s = (none, t)) :
    t.replay = [] ∧ (t.ended = true ∨ t.fault.isSome = true) := by
  have hsteps := s.next_steps
  rw [h] at hsteps
  cases hsteps with
  | stops hreplay hstopped => exact ⟨hreplay, hstopped⟩
  | fails hreplay => exact ⟨hreplay, .inr rfl⟩
  | ends hreplay => exact ⟨hreplay, .inl rfl⟩

theorem next_of_stopped {s : StreamFeed} (hreplay : s.replay = [])
    (h : s.ended = true ∨ s.fault.isSome = true) : Feed.next s = (none, s) :=
  (if_neg (not_not_intro hreplay)).trans (if_pos h)

theorem meets?_of_stopped {s : StreamFeed} (h : s.ended = true ∨ s.fault.isSome = true) :
    s.meets? = none :=
  if_pos (.inr h)

/-- The fault of a read that fails is kept beside none. -/
theorem kept_next (s : StreamFeed) :
    s.fault.toList ++ s.meets?.toList = (Feed.next s).2.fault.toList := by
  have hsteps := s.next_steps
  generalize Feed.next s = result at hsteps
  have hgoing (hreplay : s.replay = []) (hended : s.ended = false) (hfault : s.fault = none) :
      ¬ (s.replay ≠ [] ∨ s.ended = true ∨ s.fault.isSome = true) := by
    rw [hended, hfault]
    simpa using hreplay
  cases hsteps with
  | replays hreplay => rw [meets?, if_pos (.inl hreplay)]; exact List.append_nil _
  | stops hreplay hstopped => rw [meets?_of_stopped hstopped]; exact List.append_nil _
  | fails hreplay hended hfault hfill =>
      rw [meets?, if_neg (hgoing hreplay hended hfault), hfill, hfault]
      rfl
  | ends hreplay hended hfault hfill =>
      rw [meets?, if_neg (hgoing hreplay hended hfault), hfill]
      exact List.append_nil _
  | gives hreplay hended hfault hfill hblock =>
      rw [meets?, if_neg (hgoing hreplay hended hfault), hfill]
      exact List.append_nil _

/-! ## Faults are given out once -/

/-- What was kept before and what is met in a session is given out in it or
kept after it. -/
theorem met_serve (asks : List Ask) (s : StreamFeed) :
    s.fault.toList ++ (s.serve asks).met =
      (s.serve asks).faults ++ (s.serve asks).feed.fault.toList := by
  induction asks generalizing s with
  | nil => exact List.append_nil _
  | cons ask asks ih =>
      cases ask with
      | next =>
          have hlater := ih (Feed.next s).2
          rw [← kept_next, List.append_assoc] at hlater
          exact hlater
      | takeFault =>
          have hlater := ih s.takeFault.2
          show s.fault.toList ++ (serve asks s.takeFault.2).met =
            s.fault.toList ++ (serve asks s.takeFault.2).faults ++
              (serve asks s.takeFault.2).feed.fault.toList
          rw [List.append_assoc, ← hlater]
          rfl

/-! ## Staying stopped -/

/-- The feed has come to its end, or what it would still read has nothing to
give. -/
structure Exhausted (s : StreamFeed) : Prop where
  replay : s.replay = []
  nothing : s.ended = true ∨ s.reader.Dry s.blockSize

theorem Exhausted.takeFault {s : StreamFeed} (h : s.Exhausted) : s.takeFault.2.Exhausted :=
  ⟨h.replay, h.nothing⟩

theorem Exhausted.next {s : StreamFeed} (h : s.Exhausted) :
    ∃ t : StreamFeed, Feed.next s = (none, t) ∧ t.Exhausted ∧ t.consumed = s.consumed := by
  have hsteps := s.next_steps
  generalize Feed.next s = result at hsteps
  cases hsteps with
  | replays hreplay => exact absurd h.replay hreplay
  | stops => exact ⟨s, rfl, h, rfl⟩
  | ends hreplay => exact ⟨_, rfl, ⟨hreplay, .inl rfl⟩, rfl⟩
  | fails hreplay hended hfault hfill =>
      refine ⟨_, rfl, ⟨hreplay, .inr ?_⟩, rfl⟩
      rcases h.nothing with hdone | hdry
      · rw [hended] at hdone
        cases hdone
      · cases hdry with
        | ends hend =>
            rw [hfill] at hend
            cases hend
        | fails hfail hlater =>
            rw [hfill] at hfail
            obtain ⟨-, rfl⟩ := Prod.mk.inj hfail
            exact hlater
  | gives hreplay hended hfault hfill hblock =>
      rcases h.nothing with hdone | hdry
      · rw [hended] at hdone
        cases hdone
      · cases hdry with
        | ends hend =>
            rw [hfill] at hend
            exact absurd (Except.ok.inj (Prod.mk.inj hend).1) hblock
        | fails hfail =>
            rw [hfill] at hfail
            cases hfail

theorem Exhausted.staysStopped {s : StreamFeed} (h : s.Exhausted) : s.StaysStopped := by
  intro asks
  induction asks generalizing s with
  | nil => exact ⟨rfl, rfl⟩
  | cons ask asks ih =>
      cases ask with
      | takeFault => exact ih h.takeFault
      | next =>
          obtain ⟨t, hnext, hexhausted, hcount⟩ := h.next
          obtain ⟨hblocks, hconsumed⟩ := ih hexhausted
          simp only [serve, hnext]
          exact ⟨hblocks, hconsumed.trans hcount⟩

/-- A feed that keeps a fault and would go on once it was taken stays stopped
only if there is nothing to go on to. -/
theorem dry_of_staysStopped {s : StreamFeed} (hreplay : s.replay = []) (hended : s.ended = false)
    (h : s.StaysStopped) : s.reader.Dry s.blockSize := by
  -- on the reads planned; each fill that fails uses one up
  obtain ⟨n, hn⟩ : ∃ n, s.reader.plan.length = n := ⟨_, rfl⟩
  induction n using Nat.strongRecOn generalizing s with
  | ind n ih =>
      have hsteps := s.takeFault.2.next_steps
      have hgoing : s.takeFault.2.ended = false := hended
      have hserve (asks : List Ask) :
          (s.serve (.takeFault :: .next :: asks)).blocks =
              (Feed.next s.takeFault.2).1.toList ++
                (serve asks (Feed.next s.takeFault.2).2).blocks ∧
            (s.serve (.takeFault :: .next :: asks)).feed =
              (serve asks (Feed.next s.takeFault.2).2).feed := ⟨rfl, rfl⟩
      generalize Feed.next s.takeFault.2 = result at hsteps hserve
      cases hsteps with
      | replays hsome => exact absurd hreplay hsome
      | stops _ hstopped =>
          rcases hstopped with hdone | hfault
          · rw [hgoing] at hdone
            cases hdone
          · cases hfault
      | ends _ _ _ hfill => exact .ends hfill
      | gives _ _ _ hfill hblock =>
          have hnone := (h [.takeFault, .next]).1
          rw [(hserve []).1] at hnone
          cases hnone
      | @fails fault later _ _ _ hfill =>
          let t : StreamFeed := { s.takeFault.2 with reader := later, fault := some fault }
          have hless : t.reader.plan.length < n := hn ▸ Reader.plan_of_fillFrom_error hfill
          have hstays : t.StaysStopped := by
            intro asks
            have hmore := h (.takeFault :: .next :: asks)
            rw [(hserve asks).1, (hserve asks).2] at hmore
            exact hmore
          have hdry : t.reader.Dry t.blockSize := ih _ hless hreplay hended hstays rfl
          exact .fails hfill hdry

/-- A feed that has no block stays stopped just if it has come to its end, or
its reader has no more to give. -/
theorem staysStopped_iff {s t : StreamFeed} (h : Feed.next s = (none, t)) :
    t.StaysStopped ↔ t.ended = true ∨ t.reader.Dry t.blockSize := by
  obtain ⟨hreplay, -⟩ := stopped_of_next_eq_none h
  constructor
  · intro hstays
    cases hended : t.ended with
    | true => exact .inl rfl
    | false => exact .inr (dry_of_staysStopped hreplay hended hstays)
  · intro hnothing
    exact Exhausted.staysStopped ⟨hreplay, hnothing⟩

theorem serve_of_stopped {s : StreamFeed} (hreplay : s.replay = [])
    (h : s.ended = true ∨ s.fault.isSome = true) {asks : List Ask} (hasks : .takeFault ∉ asks) :
    s.serve asks = ⟨[], [], [], s⟩ := by
  induction asks with
  | nil => rfl
  | cons ask asks ih =>
      cases ask with
      | takeFault => exact absurd List.mem_cons_self hasks
      | next =>
          have hlater := ih fun hmem => hasks (List.mem_cons_of_mem _ hmem)
          simp only [serve, next_of_stopped hreplay h, meets?_of_stopped h, hlater]
          rfl

/-! ## The law of stopping -/

/-- The fault of the lookahead, if it fails. -/
def lookaheadFault? (reader : Reader) (total : Nat) (sealer : Sealer) : Option Fault :=
  if total = 0 then none
  else
    match (reader.fill (lookahead sealer)).1 with
    | .error fault => some fault
    | .ok _ => none

theorem fault_ofReader (reader : Reader) (total : Nat) (sealer : Sealer) (blockSize : Nat) :
    (ofReader reader total sealer blockSize).fault = lookaheadFault? reader total sealer := by
  unfold lookaheadFault? ofReader
  by_cases htotal : total = 0
  · simp [htotal]
  · rcases reader.fill (lookahead sealer) with ⟨fault | lead, later⟩
    · simp [htotal]
    · simp [htotal]

theorem exhausted_of_lookaheadFault? {reader : Reader} {total : Nat} {sealer : Sealer}
    {fault : Fault} (h : lookaheadFault? reader total sealer = some fault) (blockSize : Nat) :
    (ofReader reader total sealer blockSize).Exhausted := by
  have htotal : total ≠ 0 := by
    rintro rfl
    cases h
  rw [lookaheadFault?, if_neg htotal] at h
  rcases hfill : reader.fill (lookahead sealer) with ⟨failure | lead, later⟩
  · rw [ofReader_of_fill_error blockSize htotal hfill]
    exact ⟨rfl, .inl rfl⟩
  · rw [hfill] at h
    cases h

/-- However a feed is asked, the faults of the reads that fail, the lookahead
before all others, are given out once each and in their order, as far as they
are taken.  Once it has no block it stays stopped if it came to its end or if
its lookahead failed; if a read failed in a block, it stays stopped as long as
the fault is not taken, and from then on just if its reader has no more to
give. -/
theorem feed_stays_stopped_iff (reader : Reader) (total : Nat) (sealer : Sealer)
    (blockSize : Nat) :
    let opened := ofReader reader total sealer blockSize
    let failed := lookaheadFault? reader total sealer
    (∀ asks, failed.toList ++ (opened.serve asks).met =
        (opened.serve asks).faults ++ (opened.serve asks).feed.fault.toList) ∧
      (failed.isSome = true → opened.StaysStopped) ∧
      ∀ before stopped, Feed.next (opened.serve before).feed = (none, stopped) →
        (stopped.StaysStopped ↔
          stopped.ended = true ∨ stopped.reader.Dry stopped.blockSize) ∧
        (stopped.ended = true ∨ stopped.fault.isSome = true) ∧
        ∀ asks, .takeFault ∉ asks → stopped.serve asks = ⟨[], [], [], stopped⟩ := by
  intro opened failed
  refine ⟨fun asks => ?_, fun hfailed => ?_, fun before stopped hnext => ?_⟩
  · rw [← met_serve, fault_ofReader]
  · obtain ⟨fault, hfault⟩ := Option.isSome_iff_exists.mp hfailed
    exact (exhausted_of_lookaheadFault? hfault blockSize).staysStopped
  · obtain ⟨hreplay, hstopped⟩ := stopped_of_next_eq_none hnext
    exact ⟨staysStopped_iff hnext, hstopped, fun asks => serve_of_stopped hreplay hstopped⟩

/-- A read fails between two blocks.  The feed has no block, and has two more
bytes once the fault was taken. -/
theorem feed_goes_on_after_its_fault :
    let plain : Sealer := ⟨⟨false, true⟩, Substitution.ofKey [], Sealer.defaultSignature⟩
    let fault : Fault := .other "device error"
    let opened := ofReader ⟨[1, 2, 3], [.upTo 1, .failing fault]⟩ 3 plain 2
    let begun := opened.serve [.next]
    let stopped := (Feed.next begun.feed).2
    begun.blocks = [[1]] ∧ begun.feed.consumed = 1 ∧
      (Feed.next begun.feed).1 = none ∧ stopped.consumed = 1 ∧
      (stopped.serve [.takeFault, .next]).faults = [fault] ∧
      (stopped.serve [.takeFault, .next]).blocks = [[2, 3]] ∧
      (stopped.serve [.takeFault, .next]).feed.consumed = 3 ∧ ¬ stopped.StaysStopped := by
  intro plain fault opened begun stopped
  have hblocks : (stopped.serve [.takeFault, .next]).blocks = [[2, 3]] := by decide +kernel
  refine ⟨by decide +kernel, by decide +kernel, by decide +kernel, by decide +kernel,
    by decide +kernel, hblocks, by decide +kernel, fun hstays => ?_⟩
  have hnone := (hstays [.takeFault, .next]).1
  rw [hblocks] at hnone
  cases hnone

/-- The law where the lookahead fails, and where a block fails after a byte of
it was read and then again. -/
theorem feed_stays_stopped_after_two_faults :
    let plain : Sealer := ⟨⟨false, true⟩, Substitution.ofKey [], Sealer.defaultSignature⟩
    let first : Fault := .other "device error"
    let second : Fault := .other "device gone"
    let early := ofReader ⟨[1, 2, 3], [.failing first]⟩ 3 plain 2
    let late := ofReader ⟨[1, 2], [.upTo 1, .upTo 1, .failing first, .failing second]⟩ 2 plain 2
    let stopped := (Feed.next (late.serve [.next]).feed).2
    (lookaheadFault? ⟨[1, 2, 3], [.failing first]⟩ 3 plain).isSome = true ∧ early.StaysStopped ∧
      Feed.next (late.serve [.next]).feed = (none, stopped) ∧ stopped.ended = false ∧
        stopped.StaysStopped ∧ .takeFault ∉ [Ask.next, .next] ∧
        stopped.serve [.next, .next] = ⟨[], [], [], stopped⟩ := by
  intro plain first second early late stopped
  obtain ⟨-, hearly, -⟩ :=
    feed_stays_stopped_iff ⟨[1, 2, 3], [.failing first]⟩ 3 plain 2
  obtain ⟨-, -, hlate⟩ :=
    feed_stays_stopped_iff ⟨[1, 2], [.upTo 1, .upTo 1, .failing first, .failing second]⟩ 2 plain 2
  have hfailed : (lookaheadFault? ⟨[1, 2, 3], [.failing first]⟩ 3 plain).isSome = true := by
    decide +kernel
  have hnone : (Feed.next (late.serve [.next]).feed).1 = none := by decide +kernel
  have hnext : Feed.next (late.serve [.next]).feed = (none, stopped) := Prod.ext hnone rfl
  have hended : stopped.ended = false := by decide +kernel
  have hreader : stopped.reader = ⟨[], [.failing second]⟩ := by decide +kernel
  have hsize : stopped.blockSize = 2 := by decide +kernel
  obtain ⟨hiff, -, hkept⟩ := hlate [.next] stopped hnext
  have hdry : stopped.reader.Dry stopped.blockSize := by
    rw [hreader, hsize]
    exact .fails rfl (.ends rfl)
  have hasks : Ask.takeFault ∉ [Ask.next, .next] := by decide
  exact ⟨hfailed, hearly hfailed, hnext, hended, hiff.mpr (.inr hdry), hasks, hkept _ hasks⟩

end StreamFeed

end SealedModules
