/-
# Disturbed reads

What a disturbed reader gives is told apart from how it is asked: `course`
follows its plan read by read, up to the first read that gives nothing or
fails, and knows of blocks only how much each read asks for.  A fill takes
the front of this course (`Filled`): it fails where the course fails, comes
short where the course ends, and otherwise leaves the rest of it.

From this the course of a whole asset decides everything (`Opened`): the
blocks of its feed put together are the payload of what the feed has seen,
the feed has seen all of the course unless the course fails, and it keeps
the fault the course fails with.  A fault strikes in the lookahead, in a
block or between two blocks; only in the lookahead does it cost the content.
-/
import SealedModules.Proofs.Loading

namespace SealedModules

/-! ## The course of a reader -/

namespace Reader

/-- What is read of `rest` under a plan up to the first read that gives
nothing or fails, and the fault of that read.  A read asks for the room that
is left in a block, and after a full block for one of `block` bytes. -/
def courseFrom (block : Nat) : (plan : List ReadStep) → (rest : Bytes) → (room : Nat) →
    Bytes × Option Fault
  | [], rest, _ => (rest, none)
  | .interrupted :: plan, rest, room => courseFrom block plan rest room
  | .failing fault :: _, _, _ => ([], some fault)
  | .upTo count :: plan, rest, room =>
    let size := min (min count room) rest.length
    if size = 0 then ([], none)
    else
      let (more, fault) :=
        courseFrom block plan (rest.drop size) (if size = room then block else room - size)
      (rest.take size ++ more, fault)

/-- What is read of a reader in blocks, the first of `room` bytes. -/
def course (r : Reader) (block room : Nat) : Bytes × Option Fault :=
  courseFrom block r.plan r.rest room

theorem courseFrom_prefix (block : Nat) (plan : List ReadStep) (rest : Bytes) (room : Nat) :
    (courseFrom block plan rest room).1 <+: rest := by
  fun_induction courseFrom block plan rest room with
  | case1 rest room => exact List.prefix_rfl
  | case2 plan rest room ih => exact ih
  | case3 fault plan rest room => exact List.nil_prefix
  | case4 count plan rest room size hsize => exact List.nil_prefix
  | case5 count plan rest room size hsize more fault hrec ih =>
      rw [hrec] at ih
      have hfront : rest.take size ++ more <+: rest.take size ++ rest.drop size :=
        (List.prefix_append_right_inj _).mpr ih
      rwa [List.take_append_drop] at hfront

theorem course_prefix (r : Reader) (block room : Nat) : (r.course block room).1 <+: r.rest :=
  courseFrom_prefix block r.plan r.rest room

/-! ## A fill takes the front of the course -/

/-- What one fill takes of the course. -/
inductive Filled (r : Reader) (block want : Nat) : Prop where
  /-- the course fails before there is enough -/
  | failed (got : Bytes) (fault : Fault) (later : Reader)
      (hfill : r.fill want = (.error fault, later)) (hshort : got.length < want)
      (hcourse : r.course block want = (got, some fault))
  /-- the course ends before there is enough -/
  | short (got : Bytes) (later : Reader)
      (hfill : r.fill want = (.ok got, later)) (hshort : got.length < want)
      (hcourse : r.course block want = (got, none))
  /-- there is enough, and the course goes on -/
  | full (got : Bytes) (later : Reader)
      (hfill : r.fill want = (.ok got, later)) (hfull : got.length = want)
      (hcourse : r.course block want =
        (got ++ (later.course block block).1, (later.course block block).2))

theorem Filled.of_eq {r later : Reader} {block want : Nat} (h : Filled later block want)
    (hfill : r.fill want = later.fill want)
    (hcourse : r.course block want = later.course block want) : Filled r block want := by
  cases h with
  | failed got fault last hgot hshort hmore =>
      exact .failed got fault last (hfill.trans hgot) hshort (hcourse.trans hmore)
  | short got last hgot hshort hmore =>
      exact .short got last (hfill.trans hgot) hshort (hcourse.trans hmore)
  | full got last hgot hfull hmore =>
      exact .full got last (hfill.trans hgot) hfull (hcourse.trans hmore)

section Reads
variable {plan : List ReadStep} {rest : Bytes} {want count size : Nat}

theorem fill_of_nil (hwant : want ≠ 0) :
    fill ⟨rest, []⟩ want = (.ok (rest.take want), ⟨rest.drop want, []⟩) := by
  show fillFrom _ _ _ = _
  rw [fillFrom]
  exact hwant

theorem fill_of_interrupted (hwant : want ≠ 0) :
    fill ⟨rest, .interrupted :: plan⟩ want = fill ⟨rest, plan⟩ want := by
  show fillFrom _ _ _ = fillFrom _ _ _
  rw [fillFrom]
  exact hwant

theorem fill_of_failing (hwant : want ≠ 0) (fault : Fault) :
    fill ⟨rest, .failing fault :: plan⟩ want = (.error fault, ⟨rest, plan⟩) := by
  show fillFrom _ _ _ = _
  rw [fillFrom]
  exact hwant

theorem fill_of_nothing (hwant : want ≠ 0) (hsize : min (min count want) rest.length = 0) :
    fill ⟨rest, .upTo count :: plan⟩ want = (.ok [], ⟨rest, plan⟩) := by
  show fillFrom _ _ _ = _
  rw [fillFrom]
  · exact if_pos hsize
  · exact hwant

theorem fill_of_something {more : Bytes} {later : Reader} (hpos : size ≠ 0)
    (hsize : size = min (min count want) rest.length)
    (h : fill ⟨rest.drop size, plan⟩ (want - size) = (.ok more, later)) :
    fill ⟨rest, .upTo count :: plan⟩ want = (.ok (rest.take size ++ more), later) := by
  rw [fill] at h
  show fillFrom _ _ _ = _
  rw [fillFrom]
  · simp only [← hsize, if_neg hpos, h]
  · omega

theorem fill_of_later_fault {fault : Fault} {later : Reader} (hpos : size ≠ 0)
    (hsize : size = min (min count want) rest.length)
    (h : fill ⟨rest.drop size, plan⟩ (want - size) = (.error fault, later)) :
    fill ⟨rest, .upTo count :: plan⟩ want = (.error fault, later) := by
  rw [fill] at h
  show fillFrom _ _ _ = _
  rw [fillFrom]
  · simp only [← hsize, if_neg hpos, h]
  · omega

theorem course_of_something (plan : List ReadStep) (block : Nat) (hpos : size ≠ 0)
    (hsize : size = min (min count want) rest.length) :
    course ⟨rest, .upTo count :: plan⟩ block want =
      let more := course ⟨rest.drop size, plan⟩ block (if size = want then block else want - size)
      (rest.take size ++ more.1, more.2) := by
  show courseFrom _ _ _ _ = _
  rw [courseFrom, ← hsize, if_neg hpos]
  rfl

/-- A read that gives something, but not enough, leaves less wanted and the
rest of the course. -/
theorem Filled.cons {block : Nat} (hpos : size ≠ 0)
    (hsize : size = min (min count want) rest.length) (hless : size < want)
    (h : Filled ⟨rest.drop size, plan⟩ block (want - size)) :
    Filled ⟨rest, .upTo count :: plan⟩ block want := by
  have hlength (more : Bytes) : (rest.take size ++ more).length = size + more.length := by
    rw [List.length_append, List.length_take]
    omega
  have hcourse := course_of_something plan block hpos hsize
  rw [if_neg (Nat.ne_of_lt hless)] at hcourse
  cases h with
  | failed got fault later hgot hshort hmore =>
      rw [hmore] at hcourse
      exact .failed _ fault later (fill_of_later_fault hpos hsize hgot)
        (hlength got ▸ Nat.add_lt_of_lt_sub' hshort) hcourse
  | short got later hgot hshort hmore =>
      rw [hmore] at hcourse
      exact .short _ later (fill_of_something hpos hsize hgot)
        (hlength got ▸ Nat.add_lt_of_lt_sub' hshort) hcourse
  | full got later hgot hfull hmore =>
      rw [hmore] at hcourse
      refine .full _ later (fill_of_something hpos hsize hgot) ?_ ?_
      · rw [hlength, hfull, Nat.add_sub_of_le hless.le]
      · rw [hcourse, List.append_assoc]

end Reads

theorem filled (r : Reader) (block : Nat) {want : Nat} (hwant : want ≠ 0) :
    Filled r block want := by
  obtain ⟨rest, plan⟩ := r
  induction plan generalizing rest want with
  | nil =>
      rcases Nat.lt_or_ge rest.length want with hless | henough
      · refine .short rest ⟨[], []⟩ ?_ hless rfl
        rw [fill_of_nil hwant, List.take_of_length_le hless.le, List.drop_eq_nil_of_le hless.le]
      · refine .full (rest.take want) ⟨rest.drop want, []⟩ (fill_of_nil hwant) ?_ ?_
        · exact List.length_take_of_le henough
        · exact congrArg (·, none) (List.take_append_drop want rest).symm
  | cons step plan ih =>
      cases step with
      | interrupted => exact (ih hwant rest).of_eq (fill_of_interrupted hwant) rfl
      | failing fault =>
          exact .failed [] fault _ (fill_of_failing hwant fault) (Nat.pos_of_ne_zero hwant) rfl
      | upTo count =>
          obtain ⟨size, hsize⟩ : ∃ size, size = min (min count want) rest.length := ⟨_, rfl⟩
          by_cases hnone : size = 0
          · refine .short [] _ (fill_of_nothing hwant (hsize ▸ hnone)) (Nat.pos_of_ne_zero hwant) ?_
            exact if_pos (hsize ▸ hnone)
          · rcases Nat.lt_or_ge size want with hless | henough
            · exact .cons hnone hsize hless (ih (Nat.sub_ne_zero_of_lt hless) _)
            · obtain rfl : size = want := by omega
              have hrest : fill ⟨rest.drop size, plan⟩ (size - size) =
                  (.ok [], ⟨rest.drop size, plan⟩) := by
                rw [Nat.sub_self, fill, fillFrom]
              have hfill := fill_of_something hnone hsize hrest
              rw [List.append_nil] at hfill
              refine .full _ _ hfill (List.length_take_of_le (by omega)) ?_
              rw [course_of_something plan block hnone hsize, if_pos rfl]

/-- What has been seen of a course: the front of it, and all of it unless it
fails. -/
structure Seen (course : Bytes × Option Fault) (seen : Bytes) : Prop where
  front : seen <+: course.1
  whole : course.2 = none → seen = course.1

theorem Seen.append {got more seen : Bytes} {fault : Option Fault} (h : Seen (more, fault) seen) :
    Seen (got ++ more, fault) (got ++ seen) :=
  ⟨(List.prefix_append_right_inj got).mpr h.front, fun hnone => congrArg (got ++ ·) (h.whole hnone)⟩

end Reader

/-! ## What a feed makes of the course -/

namespace StreamFeed

/-- A feed that has handed out what was read ahead and will go on reading. -/
structure Going (s : StreamFeed) : Prop where
  replay : s.replay = []
  ended : s.ended = false
  fault : s.fault = none
  blockSize_pos : 0 < s.blockSize

/-- A feed after a block was read. -/
def afterBlock (s : StreamFeed) (block : Bytes) (later : Reader) : StreamFeed :=
  { s with
    reader := later
    ended := decide (block.length < s.blockSize)
    consumed := s.consumed + block.length }

section Next
variable {s : StreamFeed} {later : Reader}

theorem Going.next_eq (h : s.Going) :
    Feed.next s =
      match s.reader.fill s.blockSize with
      | (.error fault, reader) => (none, { s with reader, fault := some fault })
      | (.ok block, reader) =>
        if block = [] then (none, { s with reader, ended := true })
        else (some (s.deliver block), s.afterBlock block reader) := by
  have hgo : ¬ (s.ended = true ∨ s.fault.isSome = true) := by
    rintro (hended | hfault)
    · rw [h.ended] at hended
      cases hended
    · rw [h.fault] at hfault
      cases hfault
  exact (if_neg (not_not_intro h.replay)).trans (if_neg hgo)

theorem Going.next_of_fault (h : s.Going) {fault : Fault}
    (hfill : s.reader.fill s.blockSize = (.error fault, later)) :
    Feed.next s = (none, { s with reader := later, fault := some fault }) := by
  rw [h.next_eq, hfill]

theorem Going.next_of_nothing (h : s.Going)
    (hfill : s.reader.fill s.blockSize = (.ok [], later)) :
    Feed.next s = (none, { s with reader := later, ended := true }) := by
  simp only [h.next_eq, hfill, if_pos]

theorem Going.next_of_block (h : s.Going) {block : Bytes} (hblock : block ≠ [])
    (hfill : s.reader.fill s.blockSize = (.ok block, later)) :
    Feed.next s = (some (s.deliver block), s.afterBlock block later) := by
  simp only [h.next_eq, hfill, if_neg hblock]

end Next

theorem blocks_of_stopped {s : StreamFeed} (hreplay : s.replay = [])
    (h : s.ended = true ∨ s.fault.isSome = true) : Feed.blocks s = ([], s) := by
  refine Feed.blocks_of_none ?_
  show next s = _
  rw [next, if_neg (not_not_intro hreplay), if_pos h]

theorem deliver_nil (s : StreamFeed) : s.deliver [] = [] :=
  List.length_eq_zero_iff.mp (length_deliver s [])

theorem deliver_append (s : StreamFeed) (first second : Bytes) :
    s.deliver (first ++ second) = s.deliver first ++ s.deliver second := by
  unfold deliver
  split
  · exact Sealer.decode_append s.sealer first second
  · rfl

/-- A feed hands out what it sees of the course of its reader, and keeps the
fault the course fails with. -/
theorem blocks_of_going {s : StreamFeed} (h : s.Going) :
    ∃ seen, Reader.Seen (s.reader.course s.blockSize s.blockSize) seen ∧
      (Feed.blocks s).1.flatten = s.deliver seen ∧
      (Feed.blocks s).2.fault = (s.reader.course s.blockSize s.blockSize).2 := by
  -- on the number of bytes to come; only a full block leaves a feed going
  obtain ⟨n, hn⟩ : ∃ n, s.reader.rest.length = n := ⟨_, rfl⟩
  induction n using Nat.strongRecOn generalizing s with
  | ind n ih =>
      cases s.reader.filled s.blockSize (Nat.ne_of_gt h.blockSize_pos) with
      | failed got fault later hfill hshort hcourse =>
          rw [Feed.blocks_of_none (h.next_of_fault hfill), hcourse]
          exact ⟨[], ⟨List.nil_prefix, nofun⟩, (deliver_nil s).symm, rfl⟩
      | short got later hfill hshort hcourse =>
          rw [hcourse]
          refine ⟨got, ⟨List.prefix_rfl, fun _ => rfl⟩, ?_⟩
          by_cases hgot : got = []
          · subst hgot
            rw [Feed.blocks_of_none (h.next_of_nothing hfill)]
            exact ⟨(deliver_nil s).symm, h.fault⟩
          · have hlast : Feed.blocks (s.afterBlock got later) = ([], s.afterBlock got later) :=
              blocks_of_stopped h.replay (.inl (decide_eq_true hshort))
            rw [Feed.blocks_of_some (h.next_of_block hgot hfill), hlast]
            exact ⟨List.flatten_singleton, h.fault⟩
      | full got later hfill hfull hcourse =>
          have hgot : got ≠ [] := by
            intro hnil
            rw [hnil] at hfull
            exact absurd hfull.symm (Nat.ne_of_gt h.blockSize_pos)
          have hless : later.rest.length < n := by
            have hrest := congrArg List.length (Reader.rest_of_fill hfill)
            have hlength := List.length_pos_iff.mpr hgot
            rw [List.length_append] at hrest
            omega
          have hgoing : (s.afterBlock got later).Going :=
            ⟨h.replay, decide_eq_false (Nat.not_lt.mpr hfull.ge), h.fault, h.blockSize_pos⟩
          obtain ⟨seen, hseen, hblocks, hfault⟩ := ih _ hless hgoing rfl
          rw [Feed.blocks_of_some (h.next_of_block hgot hfill), hcourse]
          refine ⟨got ++ seen, hseen.append, ?_, hfault⟩
          rw [List.flatten_cons, hblocks, deliver_append]
          rfl

/-! ## Opening a disturbed reader -/

/-- The course of a reader that is opened as a file announced to be `total`
bytes long: the first block is what is read ahead, if anything is. -/
def courseOf (reader : Reader) (total : Nat) (sealer : Sealer) (blockSize : Nat) :
    Bytes × Option Fault :=
  reader.course (max blockSize 1) (if total = 0 then max blockSize 1 else lookahead sealer)

/-- The first bytes of a file suffice to tell what it holds. -/
def Tells (sealer : Sealer) (bytes : Bytes) (total : Nat) : Prop :=
  total = 0 ∨ lookahead sealer ≤ bytes.length

instance (sealer : Sealer) (bytes : Bytes) (total : Nat) : Decidable (Tells sealer bytes total) :=
  inferInstanceAs (Decidable (_ ∨ _))

theorem Tells.mono {sealer : Sealer} {front whole : Bytes} {total : Nat}
    (h : Tells sealer front total) (hfront : front <+: whole) : Tells sealer whole total :=
  h.imp_right fun hlength => hlength.trans hfront.length_le

theorem Tells.contentOf_eq {sealer : Sealer} {front whole : Bytes} {total : Nat}
    (h : Tells sealer front total) (hfront : front <+: whole) :
    contentOf sealer whole total = contentOf sealer front total := by
  unfold contentOf
  rcases h with hzero | hlength
  · rw [if_pos hzero, if_pos hzero]
  · obtain ⟨more, rfl⟩ := hfront
    rw [← classify_lookahead, ← classify_lookahead, List.take_append_of_le_length hlength]

theorem size_le_of_contentOf {sealer : Sealer} {bytes : Bytes} {total : Nat}
    (h : contentOf sealer bytes total = .sealedModule) : Envelope.size ≤ bytes.length := by
  obtain ⟨-, e, hparse, -⟩ := contentOf_eq_sealedModule_iff.mp h
  exact (Envelope.opens_of_parse? hparse).1

@[simp] theorem contentOf_nil (sealer : Sealer) (total : Nat) :
    contentOf sealer [] total = .source := by
  unfold contentOf
  split
  · rfl
  · exact classify_nil sealer total

theorem payload_nil (sealer : Sealer) (total : Nat) : payload sealer [] total = [] :=
  if_neg (contentOf_nil sealer total ▸ nofun)

theorem lookahead_ne_zero (sealer : Sealer) : lookahead sealer ≠ 0 := by
  unfold lookahead
  split
  · exact nofun
  · exact nofun

theorem payload_prefix {sealer : Sealer} {front whole : Bytes} {total : Nat}
    (h : Tells sealer front total) (hfront : front <+: whole) :
    payload sealer front total <+: payload sealer whole total := by
  unfold payload
  rw [h.contentOf_eq hfront]
  split
  · rename_i hsealed
    obtain ⟨more, rfl⟩ := hfront
    rw [List.drop_append_of_le_length (size_le_of_contentOf hsealed), Sealer.decode_append]
    exact List.prefix_append _ _
  · exact hfront

/-- A feed that has handed out what was read ahead. -/
def replayed (s : StreamFeed) : StreamFeed :=
  { s with replay := [], consumed := s.consumed + s.replay.length }

/-- What was read ahead is handed out before anything else. -/
theorem blocks_of_replay (s : StreamFeed) :
    (Feed.blocks s).1.flatten = s.replay ++ (Feed.blocks s.replayed).1.flatten ∧
      (Feed.blocks s).2 = (Feed.blocks s.replayed).2 := by
  by_cases hreplay : s.replay = []
  · have hsame : s.replayed = s := by
      obtain ⟨reader, sealer, blockSize, content, replay, ended, fault, consumed⟩ := s
      obtain rfl : replay = [] := hreplay
      rfl
    rw [hsame, hreplay]
    exact ⟨rfl, rfl⟩
  · rw [Feed.blocks_of_some (next_of_replay hreplay)]
    exact ⟨List.flatten_cons, rfl⟩

section Opening
variable {reader later : Reader} {total : Nat} {sealer : Sealer} {blockSize : Nat}

theorem ofReader_of_fill_error (blockSize : Nat) (htotal : total ≠ 0) {fault : Fault}
    (h : reader.fill (lookahead sealer) = (.error fault, later)) :
    ofReader reader total sealer blockSize =
      { reader := later
        sealer
        blockSize := max blockSize 1
        content := .source
        replay := []
        ended := true
        fault := some fault } := by
  have hpos := Nat.pos_of_ne_zero htotal
  simp [ofReader, htotal, h, classify_nil, hpos, Nat.pos_of_ne_zero (lookahead_ne_zero sealer)]

theorem ofReader_of_fill_ok (blockSize : Nat) (htotal : total ≠ 0) {got : Bytes}
    (h : reader.fill (lookahead sealer) = (.ok got, later))
    (hlength : got.length ≤ lookahead sealer) :
    ofReader reader total sealer blockSize =
      { reader := later
        sealer
        blockSize := max blockSize 1
        content := contentOf sealer got total
        replay := if contentOf sealer got total = .sealedModule then [] else got
        ended := decide (got.length < lookahead sealer)
        fault := none } := by
  have hpos := Nat.pos_of_ne_zero htotal
  have hcontent : contentOf sealer got total = sealer.classify got total := by
    rw [contentOf, if_neg htotal, ← classify_lookahead, List.take_of_length_le hlength]
  simp [ofReader, htotal, h, hcontent, hpos]

/-- What becomes of a feed on a reader, told by the course of the reader. -/
structure Opened (reader : Reader) (total : Nat) (sealer : Sealer) (blockSize : Nat)
    (seen : Bytes) : Prop where
  course : Reader.Seen (courseOf reader total sealer blockSize) seen
  content : (ofReader reader total sealer blockSize).content = contentOf sealer seen total
  bytes : (Feed.blocks (ofReader reader total sealer blockSize)).1.flatten =
    payload sealer seen total
  fault : (Feed.blocks (ofReader reader total sealer blockSize)).2.fault =
    (courseOf reader total sealer blockSize).2
  /-- a failure past the lookahead leaves the content told; one in it leaves nothing -/
  told : (courseOf reader total sealer blockSize).2 ≠ none → Tells sealer seen total ∨
    seen = [] ∧ ¬ Tells sealer (courseOf reader total sealer blockSize).1 total

theorem opened_of_zero : ∃ seen, Opened reader 0 sealer blockSize seen := by
  have hopen : ofReader reader 0 sealer blockSize =
      { reader
        sealer
        blockSize := max blockSize 1
        content := .source
        replay := []
        ended := false
        fault := none } := by
    simp [ofReader, classify_nil]
  have hgoing : (ofReader reader 0 sealer blockSize).Going := by
    rw [hopen]
    exact ⟨rfl, rfl, rfl, Nat.le_max_right blockSize 1⟩
  obtain ⟨seen, hseen, hbytes, hfault⟩ := blocks_of_going hgoing
  have hdeliver : (ofReader reader 0 sealer blockSize).deliver seen = seen := by
    rw [hopen]
    rfl
  rw [hdeliver] at hbytes
  rw [hopen] at hseen
  refine ⟨seen, hseen, ?_, hbytes, ?_, fun _ => .inl (.inl rfl)⟩
  · rw [hopen]
    rfl
  · rw [hfault, hopen]
    rfl

theorem opened_of_failed (htotal : total ≠ 0) {got : Bytes} {fault : Fault}
    (hfill : reader.fill (lookahead sealer) = (.error fault, later))
    (hshort : got.length < lookahead sealer)
    (hcourse : courseOf reader total sealer blockSize = (got, some fault)) :
    Opened reader total sealer blockSize [] := by
  have hopen := ofReader_of_fill_error blockSize htotal hfill
  have hblocks : Feed.blocks (ofReader reader total sealer blockSize) =
      ([], ofReader reader total sealer blockSize) := by
    rw [hopen]
    exact blocks_of_stopped rfl (.inl rfl)
  have huntold : ¬ Tells sealer got total := by
    rintro (hzero | hlength)
    · exact htotal hzero
    · exact Nat.not_le.mpr hshort hlength
  refine ⟨?_, ?_, ?_, ?_, fun _ => .inr ⟨rfl, ?_⟩⟩
  · rw [hcourse]
    exact ⟨List.nil_prefix, nofun⟩
  · rw [hopen, contentOf_nil]
  · rw [hblocks, payload_nil]
    rfl
  · rw [hblocks, hcourse, hopen]
  · rw [hcourse]
    exact huntold

/-- A lookahead that comes short is the whole file. -/
theorem opened_of_short (htotal : total ≠ 0) {got : Bytes}
    (hfill : reader.fill (lookahead sealer) = (.ok got, later))
    (hshort : got.length < lookahead sealer)
    (hcourse : courseOf reader total sealer blockSize = (got, none)) :
    Opened reader total sealer blockSize got := by
  have hplain : contentOf sealer got total ≠ .sealedModule := fun hsealed =>
    absurd (size_le_of_contentOf hsealed)
      (Nat.not_le.mpr (lookahead_of_contentOf hsealed ▸ hshort))
  have hopen := ofReader_of_fill_ok blockSize htotal hfill hshort.le
  rw [if_neg hplain] at hopen
  obtain ⟨hbytes, hlast⟩ := blocks_of_replay (ofReader reader total sealer blockSize)
  have hended : (ofReader reader total sealer blockSize).replayed.ended = true := by
    rw [hopen]
    exact decide_eq_true hshort
  rw [blocks_of_stopped rfl (.inl hended)] at hbytes hlast
  refine ⟨?_, ?_, ?_, ?_, ?_⟩
  · rw [hcourse]
    exact ⟨List.prefix_rfl, fun _ => rfl⟩
  · rw [hopen]
  · rw [hbytes, payload, if_neg hplain, hopen]
    exact List.append_nil got
  · rw [hlast, hcourse, hopen]
    rfl
  · rw [hcourse]
    exact fun hnone => absurd rfl hnone

theorem opened_of_full (htotal : total ≠ 0) {got : Bytes}
    (hfill : reader.fill (lookahead sealer) = (.ok got, later))
    (hfull : got.length = lookahead sealer)
    (hcourse : courseOf reader total sealer blockSize =
      (got ++ (later.course (max blockSize 1) (max blockSize 1)).1,
        (later.course (max blockSize 1) (max blockSize 1)).2)) :
    ∃ seen, Opened reader total sealer blockSize seen := by
  have hopen := ofReader_of_fill_ok blockSize htotal hfill hfull.le
  have hended : decide (got.length < lookahead sealer) = false :=
    decide_eq_false (Nat.not_lt.mpr hfull.ge)
  rw [hended] at hopen
  obtain ⟨hbytes, hlast⟩ := blocks_of_replay (ofReader reader total sealer blockSize)
  have hgoing : (ofReader reader total sealer blockSize).replayed.Going := by
    rw [hopen]
    exact ⟨rfl, rfl, rfl, Nat.le_max_right blockSize 1⟩
  obtain ⟨seen, hseen, hmore, hfault⟩ := blocks_of_going hgoing
  have hkept := (congrArg StreamFeed.fault hlast).trans hfault
  rw [hmore] at hbytes
  rw [hopen] at hseen hbytes hkept
  have htells : Tells sealer got total := .inr hfull.ge
  have hcontent : contentOf sealer (got ++ seen) total = contentOf sealer got total :=
    htells.contentOf_eq (List.prefix_append _ _)
  refine ⟨got ++ seen, ?_, ?_, ?_, ?_, fun _ => .inl (htells.mono (List.prefix_append _ _))⟩
  · rw [hcourse]
    exact hseen.append
  · rw [hopen, hcontent]
  · rw [hopen, hbytes, payload, hcontent]
    show (if contentOf sealer got total = .sealedModule then [] else got) ++
      (if contentOf sealer got total = .sealedModule then sealer.decode seen else seen) = _
    by_cases hsealed : contentOf sealer got total = .sealedModule
    · rw [if_pos hsealed, if_pos hsealed, if_pos hsealed,
        List.drop_left' (hfull.trans (lookahead_of_contentOf hsealed)), List.nil_append]
    · rw [if_neg hsealed, if_neg hsealed, if_neg hsealed]
  · rw [hopen, hkept, hcourse]
    rfl

/-- The course of a reader decides what becomes of a feed on it. -/
theorem opened (reader : Reader) (total : Nat) (sealer : Sealer) (blockSize : Nat) :
    ∃ seen, Opened reader total sealer blockSize seen := by
  by_cases htotal : total = 0
  · subst htotal
    exact opened_of_zero
  · have hcourse : courseOf reader total sealer blockSize =
        reader.course (max blockSize 1) (lookahead sealer) := by
      rw [courseOf, if_neg htotal]
    cases reader.filled (max blockSize 1) (lookahead_ne_zero sealer) with
    | failed got fault later hfill hshort hgot =>
        exact ⟨[], opened_of_failed htotal hfill hshort (hcourse.trans hgot)⟩
    | short got later hfill hshort hgot =>
        exact ⟨got, opened_of_short htotal hfill hshort (hcourse.trans hgot)⟩
    | full got later hfill hfull hgot =>
        exact opened_of_full htotal hfill hfull (hcourse.trans hgot)

end Opening

/-! ## The law of disturbed reads -/

/-- Whatever the reads of an asset do, its course decides what is compiled.  A
failed read in it is what is reported, with the phase that the content calls
for, and what the interpreter was fed before is the front of what any file
that goes on so would be loaded as.  Otherwise the course is compiled as a
whole file is. -/
theorem failed_read_wins {disk : Disk} {source : AssetSource} {path : String} {asset : Asset}
    (h : source.fetch disk path = .ok asset) (interpreter : Interpreter) (sealer : Sealer)
    (chunk : Option String) (blockSize : Nat) :
    let name := chunk.getD (Compilation.pathChunk path)
    let total := asset.length
    let fed := (Feed.drain (ofReader asset.reader total sealer blockSize)).1
    let result := Compilation.ofAsset interpreter sealer disk source path chunk blockSize
    let got := (courseOf asset.reader total sealer blockSize).1
    got <+: asset.reader.rest ∧ result.2 = interpreter.noteLoad name ∧
      match (courseOf asset.reader total sealer blockSize).2 with
      | some fault =>
        let content := if Tells sealer got total then contentOf sealer got total else .source
        result.1 = .error (.failed (.reading content) path fault) ∧
          ∀ whole, got <+: whole → fed <+: payload sealer whole total
      | none =>
        fed = payload sealer got total ∧
          result.1 = Compilation.outcome sealer got total (some name) := by
  intro name total fed result got
  obtain ⟨seen, hopened⟩ := opened asset.reader total sealer blockSize
  have hfed : fed = payload sealer seen total := by
    rw [← hopened.bytes]
    exact congrArg Prod.fst (Feed.drain_eq _)
  have hresult : result = Compilation.ofFeed interpreter
      (ofReader asset.reader total sealer blockSize) name path := by
    simp only [result, Compilation.ofAsset, h]
    rfl
  refine ⟨Reader.course_prefix _ _ _, ?_⟩
  have hfault := hopened.fault
  cases hcourse : (courseOf asset.reader total sealer blockSize).2 with
  | none =>
      rw [hcourse] at hfault
      have hseen : seen = got := hopened.course.whole hcourse
      rw [hresult, Compilation.ofFeed_of_payload interpreter hopened.content hopened.bytes hfault]
      exact ⟨rfl, hseen ▸ hfed, hseen ▸ rfl⟩
  | some fault =>
      rw [hcourse] at hfault
      rw [hresult, Compilation.ofFeed_of_fault interpreter hfault, hopened.content]
      have hfailed : (courseOf asset.reader total sealer blockSize).2 ≠ none := by
        rw [hcourse]
        exact nofun
      refine ⟨rfl, ?_⟩
      rcases hopened.told hfailed with htells | ⟨hseen, huntold⟩
      · have hfront : seen <+: got := hopened.course.front
        show _ = _ ∧ _
        rw [if_pos (htells.mono hfront), htells.contentOf_eq hfront, hfed]
        exact ⟨rfl, fun whole hwhole => payload_prefix htells (hfront.trans hwhole)⟩
      · show _ = _ ∧ _
        rw [if_neg huntold, hfed, hseen, contentOf_nil, payload_nil]
        exact ⟨rfl, fun _ _ => List.nil_prefix⟩

/-- A read of a sealed asset fails when one byte of its payload was read. -/
theorem failed_read_wins_within_a_block :
    let sealer : Sealer := ⟨{}, Substitution.ofKey Sealer.defaultKey, Sealer.defaultSignature⟩
    let file : Bytes := Envelope.magic ++ [3, 0, 0, 0, 0x61, 0x62, 0x63]
    let fault : Fault := .other "device gone"
    let asset : Asset :=
      ⟨15, file, [.upTo 5, .interrupted, .upTo 100, .upTo 1, .interrupted, .failing fault]⟩
    let source : AssetSource := ⟨fun _ => true, fun _ _ => .ok asset⟩
    let result := Compilation.ofAsset {} sealer Disk.scratch source "m" none 2
    source.fetch Disk.scratch "m" = .ok asset ∧
      result.1 = .error (.failed .readingSealed "m" fault) ∧
      (Feed.drain (ofReader asset.reader 15 sealer 2)).1 <+: payload sealer file 15 := by
  intro sealer file fault asset source result
  have hfetch : source.fetch Disk.scratch "m" = .ok asset := rfl
  have hcourse : courseOf asset.reader asset.length sealer 2 = (file.take 13, some fault) := by
    decide +kernel
  have hlaw := failed_read_wins hfetch {} sealer none 2
  simp only [hcourse] at hlaw
  have htells : Tells sealer (file.take 13) asset.length := by decide +kernel
  have hcontent : contentOf sealer (file.take 13) asset.length = .sealedModule := by decide +kernel
  rw [if_pos htells, hcontent] at hlaw
  exact ⟨hfetch, hlaw.2.2.1, hlaw.2.2.2 file (List.take_prefix 13 file)⟩

end StreamFeed

end SealedModules
