/-
# What a stream feed hands out

The blocks of a feed are listed by `Feed.blocks`; `drain` is their
concatenation.  For a stream feed whose reads are `Undisturbed` the list is
known in closed form (`blocks_ofReader`): what was read ahead, unless it was
the envelope, and then what the reader still holds, cut into blocks of one
size and deciphered if the content is sealed.  The plan of the reader leaves
no trace in it.

The invariant that carries the induction is `Flowing`: no fault is kept, the
reader is steady, and the feed is marked as ended only when its reader has
nothing left.  The short block that marks the end is thus the last one, and
a lookahead that came short leaves nothing to be read.
-/
import SealedModules.Proofs.Chunks
import SealedModules.Proofs.Reading
import SealedModules.Proofs.Wrapping
import SealedModules.Stream.Feed

namespace SealedModules

/-! ## The blocks of a feed -/

namespace Feed

variable {σ : Type} [Feed σ]

/-- All blocks up to the first time the feed has none, and the feed
afterwards. -/
def blocks (s : σ) : List Bytes × σ :=
  match h : next s with
  | (none, t) => ([], t)
  | (some block, t) =>
    have : size t < size s := size_lt h
    let (more, last) := blocks t
    (block :: more, last)
termination_by size s

/-- The blocks handed out on `n` requests, and the feed afterwards. -/
def request : (n : Nat) → σ → List Bytes × σ
  | 0, s => ([], s)
  | n + 1, s =>
    let (block, t) := next s
    let (more, last) := request n t
    (block.toList ++ more, last)

theorem blocks_of_none {s t : σ} (h : next s = (none, t)) : blocks s = ([], t) := by
  rw [blocks]
  split
  · rename_i u hu
    rw [hu] at h
    exact congrArg _ (Prod.mk.inj h).2
  · rename_i hu
    rw [hu] at h
    cases (Prod.mk.inj h).1

theorem blocks_of_some {s t : σ} {block : Bytes} (h : next s = (some block, t)) :
    blocks s = (block :: (blocks t).1, (blocks t).2) := by
  rw [blocks]
  split
  · rename_i hu
    rw [hu] at h
    cases (Prod.mk.inj h).1
  · rename_i b u hu
    rw [hu] at h
    obtain ⟨hb, rfl⟩ := Prod.mk.inj h
    obtain rfl := Option.some.inj hb
    rfl

theorem drain_eq (s : σ) : drain s = ((blocks s).1.flatten, (blocks s).2) := by
  fun_induction drain s with
  | case1 s t h => rw [blocks_of_none h]; rfl
  | case2 s block t h _ bytes last hrec ih =>
      rw [blocks_of_some h, List.flatten_cons]
      rw [hrec] at ih
      obtain ⟨rfl, rfl⟩ := Prod.mk.inj ih
      rfl

end Feed

theorem Queue.fst_blocks (blocks : List Bytes) : (Feed.blocks (Queue.mk blocks)).1 = blocks := by
  induction blocks with
  | nil => rw [Feed.blocks_of_none rfl]
  | cons block blocks ih => rw [Feed.blocks_of_some rfl, ih]

theorem Queue.drain_singleton (bytes : Bytes) : (Feed.drain (Queue.mk [bytes])).1 = bytes := by
  rw [Feed.drain_eq, Queue.fst_blocks]
  exact List.flatten_singleton

/-! ## A flowing stream feed -/

namespace StreamFeed

/-- What holds of a stream feed on a steady reader between two requests. -/
structure Flowing (s : StreamFeed) : Prop where
  steady : s.reader.SteadyAt s.blockSize
  blockSize_pos : 0 < s.blockSize
  rest_of_ended : s.ended = true → s.reader.rest = []
  fault : s.fault = none

theorem next_of_replay {s : StreamFeed} (h : s.replay ≠ []) :
    Feed.next s =
      (some s.replay, { s with replay := [], consumed := s.consumed + s.replay.length }) :=
  if_pos h

theorem next_of_rest_eq_nil {s : StreamFeed} (h : s.Flowing) (hreplay : s.replay = [])
    (hrest : s.reader.rest = []) :
    ∃ t : StreamFeed, Feed.next s = (none, t) ∧ t.fault = none := by
  show ∃ t, next s = _ ∧ _
  rw [next, if_neg (by simp [hreplay])]
  split
  · exact ⟨s, rfl, h.fault⟩
  · obtain ⟨later, hfill⟩ := Reader.fill_of_calm h.steady.calm
    rw [hfill, hrest]
    simp only [List.take_nil, if_true]
    exact ⟨_, rfl, h.fault⟩

theorem next_of_rest_ne_nil {s : StreamFeed} (h : s.Flowing) (hreplay : s.replay = [])
    (hrest : s.reader.rest ≠ []) :
    ∃ (later : List ReadStep) (ended : Bool),
      let t : StreamFeed := { s with
        reader := ⟨s.reader.rest.drop s.blockSize, later⟩
        ended
        consumed := s.consumed + (s.reader.rest.take s.blockSize).length }
      Feed.next s = (some (s.deliver (s.reader.rest.take s.blockSize)), t) ∧ t.Flowing := by
  have hpos := h.blockSize_pos
  have hlength := List.length_pos_iff.mpr hrest
  have hgo : ¬ (s.ended = true ∨ s.fault.isSome = true) := by
    rintro (hended | hfault)
    · exact hrest (h.rest_of_ended hended)
    · rw [h.fault] at hfault
      cases hfault
  have hblock : s.reader.rest.take s.blockSize ≠ [] := by
    rw [← List.length_pos_iff, List.length_take]
    omega
  obtain ⟨later, hfill⟩ := Reader.fill_of_calm h.steady.calm
  have hsteady : Reader.SteadyAt s.blockSize ⟨s.reader.rest.drop s.blockSize, later⟩ := by
    have := h.steady.fill
    rwa [hfill] at this
  refine ⟨later, decide ((s.reader.rest.take s.blockSize).length < s.blockSize), ?_, ?_⟩
  · show next s = _
    rw [next, if_neg (by simp [hreplay]), if_neg hgo, hfill]
    simp only [if_neg hblock]
  · refine ⟨hsteady, hpos, fun hended => ?_, h.fault⟩
    have hshort := of_decide_eq_true hended
    rw [List.length_take] at hshort
    exact List.drop_eq_nil_of_le (by omega)

theorem flatten_map_deliver (s : StreamFeed) (blocks : List Bytes) :
    (blocks.map s.deliver).flatten = s.deliver blocks.flatten := by
  unfold deliver
  split
  · induction blocks with
    | nil => simp [Sealer.decode, Substitution.decipher]
    | cons block blocks ih => simp [ih]
  · rw [List.map_id']

@[simp] theorem length_deliver (s : StreamFeed) (block : Bytes) :
    (s.deliver block).length = block.length := by
  unfold deliver
  split
  · exact Sealer.length_decode _ _
  · rfl

theorem blocks_of_replayed {s : StreamFeed} (h : s.Flowing) (hreplay : s.replay = []) :
    (Feed.blocks s).1 = (s.reader.rest.chunks s.blockSize).map s.deliver ∧
      (Feed.blocks s).2.fault = none := by
  -- on the number of bytes left; a request takes some of them
  obtain ⟨n, hn⟩ : ∃ n, s.reader.rest.length = n := ⟨_, rfl⟩
  induction n using Nat.strongRecOn generalizing s with
  | ind n ih =>
      by_cases hrest : s.reader.rest = []
      · obtain ⟨t, hnext, hfault⟩ := next_of_rest_eq_nil h hreplay hrest
        rw [Feed.blocks_of_none hnext, hrest]
        exact ⟨by simp, hfault⟩
      · obtain ⟨later, ended, hnext, hflow⟩ := next_of_rest_ne_nil h hreplay hrest
        have hpos := h.blockSize_pos
        have hless : (s.reader.rest.drop s.blockSize).length < n := by
          have := List.length_pos_iff.mpr hrest
          rw [List.length_drop]
          omega
        obtain ⟨hblocks, hfault⟩ := ih _ hless hflow hreplay rfl
        rw [Feed.blocks_of_some hnext]
        refine ⟨?_, hfault⟩
        rw [Bytes.chunks_of_ne_nil _ hrest, List.map_cons,
          show max s.blockSize 1 = s.blockSize by omega, hblocks]
        rfl

/-- A flowing feed hands out what was read ahead and then the rest in blocks,
and keeps no fault. -/
theorem blocks_of_flowing {s : StreamFeed} (h : s.Flowing) :
    (Feed.blocks s).1 =
        (if s.replay = [] then [] else [s.replay]) ++
          (s.reader.rest.chunks s.blockSize).map s.deliver ∧
      (Feed.blocks s).2.fault = none := by
  by_cases hreplay : s.replay = []
  · rw [if_pos hreplay]
    exact blocks_of_replayed h hreplay
  · let t : StreamFeed := { s with replay := [], consumed := s.consumed + s.replay.length }
    have hflow : t.Flowing := ⟨h.steady, h.blockSize_pos, h.rest_of_ended, h.fault⟩
    rw [if_neg hreplay, Feed.blocks_of_some (next_of_replay hreplay)]
    obtain ⟨hblocks, hfault⟩ := blocks_of_replayed hflow rfl
    exact ⟨congrArg (s.replay :: ·) hblocks, hfault⟩

/-! ## Opening a feed -/

/-- The lookahead tells the content as well as a whole header would. -/
theorem classify_lookahead (sealer : Sealer) (bytes : Bytes) (total : Nat) :
    sealer.classify (bytes.take (lookahead sealer)) total =
      sealer.classify (bytes.take Envelope.size) total := by
  unfold lookahead
  split
  · rfl
  · rename_i hp
    simp [Sealer.classify, hp, List.head?_take, Envelope.size]

theorem classify_nil (sealer : Sealer) (total : Nat) : sealer.classify [] total = .source := by
  simp [Sealer.classify, Envelope.parse?, Envelope.size]

/-- How many bytes are read ahead of a file announced to be `total` bytes
long. -/
def ahead (sealer : Sealer) (total : Nat) : Nat := if total = 0 then 0 else lookahead sealer

/-- What a file announced to be `total` bytes long holds. -/
def contentOf (sealer : Sealer) (bytes : Bytes) (total : Nat) : Content :=
  if total = 0 then .source else sealer.classify (bytes.take Envelope.size) total

theorem contentOf_eq_sealedModule_iff {sealer : Sealer} {bytes : Bytes} {total : Nat} :
    contentOf sealer bytes total = .sealedModule ↔
      sealer.isProtecting = true ∧
        ∃ e : Envelope, Envelope.parse? bytes = some e ∧ e.matchesLength total = true := by
  by_cases htotal : total = 0
  · rw [contentOf, if_pos htotal]
    constructor
    · exact nofun
    · rintro ⟨-, e, -, hmatch⟩
      have hlength := Envelope.matchesLength_iff.mp hmatch
      rw [htotal, Envelope.size] at hlength
      omega
  · rw [contentOf, if_neg htotal, Sealer.classify_eq_sealedModule_iff, Envelope.parse?_take_size]

theorem lookahead_of_contentOf {sealer : Sealer} {bytes : Bytes} {total : Nat}
    (h : contentOf sealer bytes total = .sealedModule) : lookahead sealer = Envelope.size :=
  if_pos (contentOf_eq_sealedModule_iff.mp h).1

/-- No read made while a feed is opened and taken in fails or gives nothing
before the end; it may be short and may be interrupted. -/
def Undisturbed (reader : Reader) (total : Nat) (sealer : Sealer) (blockSize : Nat) : Prop :=
  if total = 0 then reader.SteadyAt (max blockSize 1)
  else reader.Calm (lookahead sealer) ∧
    (reader.fill (lookahead sealer)).2.SteadyAt (max blockSize 1)

theorem undisturbed_of_steadyPlan {reader : Reader} (h : Reader.SteadyPlan reader.plan)
    (total : Nat) (sealer : Sealer) (blockSize : Nat) :
    Undisturbed reader total sealer blockSize := by
  unfold Undisturbed
  split
  · exact Reader.steadyAt_of_steadyPlan h _
  · exact ⟨(Reader.steadyAt_of_steadyPlan h _).calm, Reader.steadyAt_of_steadyPlan (h.fill _) _⟩

section Opening
variable {reader : Reader} {total : Nat} {sealer : Sealer} {blockSize : Nat}
  (h : Undisturbed reader total sealer blockSize)
include h

theorem ofReader_of_undisturbed :
    ∃ (later : List ReadStep) (ended : Bool),
      let content := contentOf sealer reader.rest total
      let s : StreamFeed := {
        reader := ⟨reader.rest.drop (ahead sealer total), later⟩
        sealer
        blockSize := max blockSize 1
        content
        replay := if content = .sealedModule then [] else reader.rest.take (ahead sealer total)
        ended
        fault := none }
      ofReader reader total sealer blockSize = s ∧ s.Flowing := by
  by_cases ht : total = 0
  · subst ht
    have hsteady : reader.SteadyAt (max blockSize 1) := h
    refine ⟨reader.plan, false, ?_, ⟨hsteady, by simp, fun hended => (nomatch hended), rfl⟩⟩
    simp [ofReader, contentOf, ahead, classify_nil]
  · rw [Undisturbed, if_neg ht] at h
    obtain ⟨hcalm, hsteady⟩ := h
    obtain ⟨later, hfill⟩ := Reader.fill_of_calm hcalm
    rw [hfill] at hsteady
    refine ⟨later, decide ((reader.rest.take (lookahead sealer)).length < lookahead sealer), ?_, ?_⟩
    · have hpos : 0 < total := Nat.pos_of_ne_zero ht
      simp only [ofReader, if_neg ht, hfill, contentOf, ahead, classify_lookahead, hpos,
        decide_true, Bool.true_and]
    · refine ⟨by simpa [ahead, ht] using hsteady, by simp, fun hended => ?_, rfl⟩
      have hshort := of_decide_eq_true hended
      rw [List.length_take] at hshort
      simp only [ahead, if_neg ht]
      exact List.drop_eq_nil_of_le (by omega)

theorem flowing_ofReader : (ofReader reader total sealer blockSize).Flowing := by
  obtain ⟨later, ended, hs, hflow⟩ := ofReader_of_undisturbed h
  exact hs ▸ hflow

theorem content_ofReader :
    (ofReader reader total sealer blockSize).content = contentOf sealer reader.rest total := by
  obtain ⟨later, ended, hs, -⟩ := ofReader_of_undisturbed h
  rw [hs]

theorem replay_ofReader :
    (ofReader reader total sealer blockSize).replay =
      if contentOf sealer reader.rest total = .sealedModule then []
      else reader.rest.take (ahead sealer total) := by
  obtain ⟨later, ended, hs, -⟩ := ofReader_of_undisturbed h
  rw [hs]

theorem rest_ofReader :
    (ofReader reader total sealer blockSize).reader.rest =
      reader.rest.drop (ahead sealer total) := by
  obtain ⟨later, ended, hs, -⟩ := ofReader_of_undisturbed h
  rw [hs]

theorem deliver_ofReader (block : Bytes) :
    (ofReader reader total sealer blockSize).deliver block =
      if contentOf sealer reader.rest total = .sealedModule then sealer.decode block
      else block := by
  obtain ⟨later, ended, hs, -⟩ := ofReader_of_undisturbed h
  rw [hs]
  rfl

theorem blocks_ofReader :
    let s := ofReader reader total sealer blockSize
    (Feed.blocks s).1 =
        (if s.replay = [] then [] else [s.replay]) ++
          (Bytes.chunks blockSize (reader.rest.drop (ahead sealer total))).map s.deliver ∧
      (Feed.blocks s).2.fault = none := by
  intro s
  obtain ⟨later, ended, hs, -⟩ := ofReader_of_undisturbed h
  have hsize : s.blockSize = max blockSize 1 := by simp only [s, hs]
  obtain ⟨hblocks, hfault⟩ := blocks_of_flowing (flowing_ofReader h)
  refine ⟨?_, hfault⟩
  rw [hblocks, rest_ofReader h, hsize, Bytes.chunks_max_one]

/-- What a whole file is handed out as: its payload deciphered if it is
sealed, and otherwise itself. -/
theorem flatten_blocks_ofReader :
    (Feed.blocks (ofReader reader total sealer blockSize)).1.flatten =
      if contentOf sealer reader.rest total = .sealedModule
      then sealer.decode (reader.rest.drop Envelope.size) else reader.rest := by
  rw [(blocks_ofReader h).1, List.flatten_append, flatten_map_deliver,
    Bytes.flatten_chunks, deliver_ofReader h, replay_ofReader h]
  by_cases hc : contentOf sealer reader.rest total = .sealedModule
  · -- only a whole envelope is taken for one, so all of the lookahead is dropped
    have hahead : ahead sealer total = Envelope.size := by
      have ht : total ≠ 0 := by
        intro hzero
        rw [contentOf, if_pos hzero] at hc
        cases hc
      rw [ahead, if_neg ht, lookahead_of_contentOf hc]
    simp [hc, hahead]
  · simp only [hc, if_false]
    split
    · rename_i hnil
      have hcut := List.take_append_drop (ahead sealer total) reader.rest
      rwa [hnil] at hcut
    · rw [List.flatten_singleton, List.take_append_drop]

theorem ne_nil_of_mem_blocks_ofReader {block : Bytes}
    (hmem : block ∈ (Feed.blocks (ofReader reader total sealer blockSize)).1) : block ≠ [] := by
  rw [(blocks_ofReader h).1] at hmem
  rcases List.mem_append.mp hmem with hmem | hmem
  · split at hmem
    · exact absurd hmem List.not_mem_nil
    · rename_i hne
      exact List.mem_singleton.mp hmem ▸ hne
  · obtain ⟨piece, hpiece, rfl⟩ := List.mem_map.mp hmem
    rw [← List.length_pos_iff, length_deliver, List.length_pos_iff]
    exact Bytes.ne_nil_of_mem_chunks hpiece

end Opening

/-! ## Counting what is handed out -/

theorem consumed_ofReader (reader : Reader) (total : Nat) (sealer : Sealer) (blockSize : Nat) :
    (ofReader reader total sealer blockSize).consumed = 0 := by
  rfl

theorem consumed_next (s : StreamFeed) :
    (Feed.next s).2.consumed = s.consumed + (Feed.next s).1.toList.flatten.length := by
  show (next s).2.consumed = s.consumed + (next s).1.toList.flatten.length
  unfold next
  split
  · simp
  · split
    · simp
    · split
      · simp
      · split <;> simp

theorem consumed_blocks (s : StreamFeed) :
    (Feed.blocks s).2.consumed = s.consumed + (Feed.blocks s).1.flatten.length := by
  fun_induction Feed.blocks s with
  | case1 s t h =>
      have hcount := consumed_next s
      rw [h] at hcount
      exact hcount
  | case2 s block t h _ more last hrec ih =>
      have hcount := consumed_next s
      rw [h] at hcount
      rw [hrec] at ih
      simp only [List.flatten_cons, List.length_append] at ih ⊢
      simp only [Option.toList_some, List.flatten_singleton] at hcount
      omega

theorem consumed_request (n : Nat) (s : StreamFeed) :
    (Feed.request n s).2.consumed = s.consumed + (Feed.request n s).1.flatten.length := by
  induction n generalizing s with
  | zero => rfl
  | succ n ih =>
      simp only [Feed.request, List.flatten_append, List.length_append]
      rw [ih, consumed_next, Nat.add_assoc]

end StreamFeed

/-! ## A module in memory -/

namespace BufferFeed

variable (sealer : Sealer) (bytes : Bytes)

theorem drain_ofBytes :
    (Feed.drain (ofBytes sealer bytes)).1 = (ofBytes sealer bytes).data ∧
      (Feed.drain (ofBytes sealer bytes)).2.consumed = (ofBytes sealer bytes).data.length := by
  rw [Feed.drain_eq]
  by_cases hdata : (ofBytes sealer bytes).data = []
  · have hnext : Feed.next (ofBytes sealer bytes) =
        (none, { ofBytes sealer bytes with done := true }) := if_pos (.inr hdata)
    rw [Feed.blocks_of_none hnext, hdata]
    exact ⟨rfl, rfl⟩
  · have hfresh : ¬ ((ofBytes sealer bytes).done = true ∨ (ofBytes sealer bytes).data = []) := by
      rintro (hdone | hnil)
      · cases hdone
      · exact hdata hnil
    have hnext : Feed.next (ofBytes sealer bytes) =
        (some (ofBytes sealer bytes).data, { ofBytes sealer bytes with
          done := true, consumed := (ofBytes sealer bytes).data.length }) := if_neg hfresh
    have hlast (t : BufferFeed) (ht : t.done = true) :
        Feed.next t = (none, { t with done := true }) := if_pos (.inl ht)
    rw [Feed.blocks_of_some hnext, Feed.blocks_of_none (hlast _ rfl)]
    exact ⟨by simp, rfl⟩

theorem content_ofBytes :
    (ofBytes sealer bytes).content = StreamFeed.contentOf sealer bytes bytes.length := by
  unfold StreamFeed.contentOf
  split
  · rename_i hnil
    obtain rfl := List.length_eq_zero_iff.mp hnil
    exact StreamFeed.classify_nil sealer 0
  · rfl

end BufferFeed

/-! ## The law of feeding -/

namespace StreamFeed

/-- However its reads are cut and interrupted, whatever the announced length
and the block size, a stream feed tells the content from the first bytes,
hands out the whole payload without a fault and without empty blocks, all but
the last of one size after what was read ahead, and counts it; with the true
length it does what a feed from memory does. -/
theorem stream_feed_hands_out_content {reader : Reader} {total : Nat} {sealer : Sealer}
    {blockSize : Nat} (h : Undisturbed reader total sealer blockSize) :
    let bytes := reader.rest
    let feed := ofReader reader total sealer blockSize
    let blocks := (Feed.blocks feed).1
    let lead := if feed.content = .sealedModule ∨ total = 0 then []
      else bytes.take (lookahead sealer)
    feed.content = (if total = 0 then .source
        else sealer.classify (bytes.take Envelope.size) total) ∧
      blocks.flatten = (if feed.content = .sealedModule
        then sealer.decode (bytes.drop Envelope.size) else bytes) ∧
      (∀ block ∈ blocks, block ≠ []) ∧
      (∃ body, blocks = (if lead = [] then [] else [lead]) ++ body ∧
        (∀ block ∈ body, block.length ≤ max blockSize 1) ∧
        ∀ block ∈ body.dropLast, block.length = max blockSize 1) ∧
      (∀ n, (Feed.request n feed).2.consumed = (Feed.request n feed).1.flatten.length) ∧
      (Feed.blocks feed).2.consumed = blocks.flatten.length ∧
      (Feed.blocks feed).2.fault = none ∧
      (total = bytes.length →
        let buffer := BufferFeed.ofBytes sealer bytes
        buffer.content = feed.content ∧
          (Feed.drain buffer).1 = (Feed.drain feed).1 ∧
          (Feed.drain buffer).2.consumed = (Feed.drain feed).2.consumed) := by
  intro bytes feed blocks lead
  have hcontent : feed.content = contentOf sealer bytes total :=
    content_ofReader h
  have hblocks : blocks = (if feed.replay = [] then [] else [feed.replay]) ++
      (Bytes.chunks blockSize (bytes.drop (ahead sealer total))).map feed.deliver :=
    (blocks_ofReader h).1
  have hflatten : blocks.flatten = (if feed.content = .sealedModule
      then sealer.decode (bytes.drop Envelope.size) else bytes) := by
    rw [hcontent]
    exact flatten_blocks_ofReader h
  have hlead : feed.replay = lead := by
    rw [replay_ofReader h, ← hcontent]
    simp only [lead, ahead, bytes]
    split <;> split <;> simp_all
  have hzero : feed.consumed = 0 := consumed_ofReader reader total sealer blockSize
  have hcount : (Feed.blocks feed).2.consumed = blocks.flatten.length := by
    rw [consumed_blocks, hzero, Nat.zero_add]
  refine ⟨hcontent, hflatten, fun block => ne_nil_of_mem_blocks_ofReader h,
    ⟨_, hlead ▸ hblocks, ?_, ?_⟩, ?_, hcount, (blocks_ofReader h).2, ?_⟩
  · intro block hmem
    obtain ⟨piece, hpiece, rfl⟩ := List.mem_map.mp hmem
    rw [length_deliver]
    exact Bytes.length_le_of_mem_chunks hpiece
  · intro block hmem
    rw [← List.map_dropLast] at hmem
    obtain ⟨piece, hpiece, rfl⟩ := List.mem_map.mp hmem
    rw [length_deliver]
    exact Bytes.length_of_mem_dropLast_chunks hpiece
  · intro n
    rw [consumed_request, hzero, Nat.zero_add]
  · intro ht buffer
    have hsame : buffer.content = feed.content := by
      rw [hcontent, ht]
      exact BufferFeed.content_ofBytes sealer bytes
    have hdata : buffer.data = blocks.flatten := by
      rw [hflatten, ← hsame]
      rfl
    obtain ⟨hbytes, hconsumed⟩ := BufferFeed.drain_ofBytes sealer bytes
    rw [Feed.drain_eq feed]
    exact ⟨hsame, hbytes.trans hdata, by rw [hconsumed, hcount, ← hdata]⟩

/-- The law for a sealed file of fifteen bytes, read in pieces that cut both
the envelope and the payload, with a read of nothing after the end. -/
theorem stream_feed_hands_out_sealed_content :
    let sealer : Sealer := ⟨{}, Substitution.ofKey Sealer.defaultKey, Sealer.defaultSignature⟩
    let file : Bytes := Envelope.magic ++ [3, 0, 0, 0, 0x61, 0x62, 0x63]
    let reader : Reader :=
      ⟨file, [.upTo 5, .interrupted, .upTo 100, .upTo 1, .interrupted, .upTo 1, .upTo 1, .upTo 0]⟩
    let feed := ofReader reader 15 sealer 2
    Undisturbed reader 15 sealer 2 ∧ 15 = reader.rest.length ∧ feed.content = .sealedModule ∧
      (Feed.blocks feed).1.flatten = sealer.decode [0x61, 0x62, 0x63] ∧
      (Feed.drain (BufferFeed.ofBytes sealer file)).1 = (Feed.drain feed).1 := by
  intro sealer file reader feed
  let opened : Reader := ⟨[0x61, 0x62, 0x63], [.upTo 1, .interrupted, .upTo 1, .upTo 1, .upTo 0]⟩
  let begun : Reader := ⟨[0x63], [.upTo 1, .upTo 0]⟩
  have hopened : (reader.fill (lookahead sealer)).2 = opened := by rfl
  have hbegun : (opened.fill 2).2 = begun := by rfl
  have hdone : (begun.fill 2).2 = ⟨[], []⟩ := by rfl
  have hahead : reader.Calm (lookahead sealer) := by
    simp [Reader.Calm, Reader.CalmPlan, reader, file, lookahead, sealer, Envelope.magic,
      Envelope.size, Sealer.isProtecting]
  have hfirst : opened.Calm 2 := by simp [Reader.Calm, Reader.CalmPlan, opened]
  have hsecond : begun.Calm 2 := by simp [Reader.Calm, Reader.CalmPlan, begun]
  have hlast : Reader.SteadyAt 2 ⟨[], []⟩ :=
    Reader.steadyAt_of_steadyPlan (by simp [Reader.SteadyPlan]) 2
  have hfed : opened.SteadyAt 2 := .of_fill hfirst (hbegun ▸ .of_fill hsecond (hdone ▸ hlast))
  have hsteady : Undisturbed reader 15 sealer 2 := by
    rw [Undisturbed, if_neg (by decide), hopened]
    exact ⟨hahead, hfed⟩
  obtain ⟨hcontent, hflatten, -, -, -, -, -, hbuffer⟩ :=
    stream_feed_hands_out_content hsteady
  have hsealed : feed.content = .sealedModule := hcontent.trans (by rfl)
  rw [if_pos hsealed] at hflatten
  exact ⟨hsteady, rfl, hsealed, hflatten, (hbuffer rfl).2.1⟩

end StreamFeed

end SealedModules
