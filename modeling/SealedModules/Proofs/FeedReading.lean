/-
# Reading a feed in pieces

Whoever reads a feed chooses how many bytes to ask for each time, and has no
say in where the blocks end.  None of that is seen in the bytes: at any time
those already returned and those still to come (`FeedReader.remaining`) are
the blocks put together, and no read changes that sum (`read_append_remaining`).
It holds because a read takes blocks until one is not empty, so an empty read
that had room for something is the end.

What is asked of the feed is read off a record of its answers.  The answers
given and those that a feed that has not ended would still give
(`FeedReader.answered`) are one list however far the reader is, and in that
list no answer follows the one that there is no block.

Taking in all that is left is a row of reads with room for something, the last
of which returns nothing (`readToEnd_of_reads`).
-/
import SealedModules.Proofs.Feeding
import SealedModules.Stream.FeedReader

namespace SealedModules

/-! ## A record of answers -/

/-- A feed with the answers it has given so far. -/
structure Recorded (σ : Type) where
  feed : σ
  answers : List (Option Bytes) := []

namespace Recorded

variable {σ : Type} [Feed σ]

instance : Feed (Recorded σ) where
  next s :=
    ((Feed.next s.feed).1, ⟨(Feed.next s.feed).2, s.answers ++ [(Feed.next s.feed).1]⟩)
  size s := Feed.size s.feed
  size_lt {s _ _} h := by
    obtain ⟨hblock, rfl⟩ := Prod.mk.inj h
    exact Feed.size_lt (Prod.ext hblock rfl)

theorem fst_blocks (feed : σ) (answers : List (Option Bytes)) :
    (Feed.blocks (Recorded.mk feed answers)).1 = (Feed.blocks feed).1 := by
  fun_induction Feed.blocks feed generalizing answers with
  | case1 s t h =>
      have hnext : Feed.next (Recorded.mk s answers) = (none, ⟨t, answers ++ [none]⟩) := by
        show ((Feed.next s).1, _) = _
        rw [h]
      rw [Feed.blocks_of_none hnext]
  | case2 s block t h _ more last hrec ih =>
      have hnext : Feed.next (Recorded.mk s answers) =
          (some block, ⟨t, answers ++ [some block]⟩) := by
        show ((Feed.next s).1, _) = _
        rw [h]
      rw [Feed.blocks_of_some hnext, ih, hrec]

theorem answers_of_next {s t : Recorded σ} {answer : Option Bytes}
    (h : Feed.next s = (answer, t)) : t.answers = s.answers ++ [answer] := by
  obtain ⟨rfl, rfl⟩ := Prod.mk.inj h
  rfl

/-- Going through a feed leaves a record of its blocks and of its end. -/
theorem answers_of_blocks (s : Recorded σ) :
    (Feed.blocks s).2.answers = s.answers ++ ((Feed.blocks s).1.map some ++ [none]) := by
  fun_induction Feed.blocks s with
  | case1 s t h => exact answers_of_next h
  | case2 s block t h _ more last hrec ih =>
      rw [hrec] at ih
      rw [ih, answers_of_next h, List.append_assoc]
      rfl

end Recorded

namespace FeedReader

variable {σ : Type} [Feed σ]

/-! ## One read -/

theorem refill_of_stocked {r : FeedReader σ} (h : r.pending ≠ [] ∨ r.done) : r.refill = r := by
  rw [refill, if_pos h]

theorem refill_of_none {r : FeedReader σ} {feed : σ} (h : ¬ (r.pending ≠ [] ∨ r.done))
    (hnext : Feed.next r.feed = (none, feed)) :
    r.refill = { feed, pending := [], done := true } := by
  rw [refill, if_neg h]
  split
  · rename_i t ht
    rw [ht] at hnext
    rw [(Prod.mk.inj hnext).2]
  · rename_i ht
    rw [ht] at hnext
    cases (Prod.mk.inj hnext).1

theorem refill_of_some {r : FeedReader σ} {block : Bytes} {feed : σ}
    (h : ¬ (r.pending ≠ [] ∨ r.done)) (hnext : Feed.next r.feed = (some block, feed)) :
    r.refill = refill { feed, pending := block, done := false } := by
  rw [refill, if_neg h]
  split
  · rename_i ht
    rw [ht] at hnext
    cases (Prod.mk.inj hnext).1
  · rename_i found t ht
    rw [ht] at hnext
    obtain ⟨hblock, rfl⟩ := Prod.mk.inj hnext
    obtain rfl := Option.some.inj hblock
    rfl

/-- The bytes still to come. -/
def remaining (r : FeedReader σ) : Bytes :=
  r.pending ++ if r.done then [] else (Feed.blocks r.feed).1.flatten

theorem remaining_refill (r : FeedReader σ) : r.refill.remaining = r.remaining := by
  fun_induction refill r with
  | case1 r h => rfl
  | case2 r h feed hnext =>
      obtain ⟨hpending, hdone⟩ := not_or.mp h
      have hdone : r.done = false := Bool.not_eq_true _ ▸ hdone
      simp [remaining, Decidable.not_not.mp hpending, hdone, Feed.blocks_of_none hnext]
  | case3 r h block feed hnext _ ih =>
      obtain ⟨hpending, hdone⟩ := not_or.mp h
      have hdone : r.done = false := Bool.not_eq_true _ ▸ hdone
      rw [ih]
      simp [remaining, Decidable.not_not.mp hpending, hdone, Feed.blocks_of_some hnext]

/-- Blocks are taken until there is something to return, so there is nothing
pending only at the end. -/
theorem done_of_refill {r : FeedReader σ} (h : r.refill.pending = []) : r.refill.done = true := by
  fun_induction refill r with
  | case1 r hkept => exact hkept.resolve_left (not_not_intro h)
  | case2 => rfl
  | case3 r _ block feed hnext _ ih => exact ih h

/-- A read moves bytes from those still to come to those returned. -/
theorem read_append_remaining (r : FeedReader σ) (size : Nat) :
    (r.read size).1 ++ (r.read size).2.remaining = r.remaining := by
  rw [← remaining_refill r, remaining, remaining, ← List.append_assoc]
  exact congrArg (· ++ _) (List.take_append_drop size r.refill.pending)

theorem length_read_le (r : FeedReader σ) (size : Nat) : (r.read size).1.length ≤ size :=
  List.length_take_le _ _

theorem read_eq_nil_of_remaining {r : FeedReader σ} (h : r.remaining = []) (size : Nat) :
    (r.read size).1 = [] := by
  have hsum := r.read_append_remaining size
  rw [h] at hsum
  exact (List.append_eq_nil_iff.mp hsum).1

theorem read_eq_nil_iff (r : FeedReader σ) {size : Nat} (hsize : size ≠ 0) :
    (r.read size).1 = [] ↔ r.remaining = [] := by
  refine ⟨fun h => ?_, fun h => read_eq_nil_of_remaining h size⟩
  have hpending : r.refill.pending = [] := (List.take_eq_nil_iff.mp h).resolve_left hsize
  rw [← remaining_refill, remaining, hpending, done_of_refill hpending]
  rfl

theorem fst_readToEnd (r : FeedReader σ) : r.readToEnd.1 = r.remaining := by
  unfold readToEnd remaining
  split
  · exact (List.append_nil _).symm
  · rw [Feed.drain_eq]

theorem snd_readToEnd (r : FeedReader σ) :
    r.readToEnd.2 =
      { feed := if r.done then r.feed else (Feed.blocks r.feed).2, pending := [], done := true } := by
  unfold readToEnd
  split
  · rename_i hdone
    rw [← hdone]
  · rw [Feed.drain_eq]

theorem snd_readToEnd_refill (r : FeedReader σ) : r.refill.readToEnd.2 = r.readToEnd.2 := by
  fun_induction refill r with
  | case1 r h => rfl
  | case2 r h feed hnext =>
      rw [snd_readToEnd, snd_readToEnd, if_neg (not_or.mp h).2, Feed.blocks_of_none hnext]
      rfl
  | case3 r h block feed hnext _ ih =>
      rw [ih, snd_readToEnd, snd_readToEnd, if_neg (not_or.mp h).2, Feed.blocks_of_some hnext]
      rfl

theorem snd_readToEnd_read (r : FeedReader σ) (size : Nat) :
    (r.read size).2.readToEnd.2 = r.readToEnd.2 := by
  rw [← snd_readToEnd_refill r, snd_readToEnd, snd_readToEnd]
  rfl

theorem snd_read_of_eq_nil {r : FeedReader σ} {size : Nat} (hsize : size ≠ 0)
    (h : (r.read size).1 = []) : (r.read size).2 = r.readToEnd.2 := by
  have hpending : r.refill.pending = [] := (List.take_eq_nil_iff.mp h).resolve_left hsize
  have hdone := done_of_refill hpending
  have hleft : (r.read size).2 = { feed := r.refill.feed, pending := [], done := true } := by
    rw [← hdone, ← List.drop_nil (i := size), ← hpending]
    rfl
  rw [← snd_readToEnd_read r size, hleft]
  rfl

/-! ## A row of reads -/

/-- The bytes returned by reads of the given sizes, one after the other, and
the reader afterwards. -/
def reads : (sizes : List Nat) → FeedReader σ → List Bytes × FeedReader σ
  | [], r => ([], r)
  | size :: sizes, r =>
    let (bytes, r) := r.read size
    let (more, r) := reads sizes r
    (bytes :: more, r)

theorem reads_append_remaining (r : FeedReader σ) (sizes : List Nat) :
    (r.reads sizes).1.flatten ++ (r.reads sizes).2.remaining = r.remaining := by
  induction sizes generalizing r with
  | nil => rfl
  | cons size sizes ih =>
      rw [← read_append_remaining r size, ← ih (r.read size).2, ← List.append_assoc]
      rfl

theorem length_reads_le (r : FeedReader σ) (sizes : List Nat) :
    List.Forall₂ (fun bytes size => bytes.length ≤ size) (r.reads sizes).1 sizes := by
  induction sizes generalizing r with
  | nil => exact .nil
  | cons size sizes ih => exact .cons (r.length_read_le size) (ih _)

theorem snd_readToEnd_reads (r : FeedReader σ) (sizes : List Nat) :
    (r.reads sizes).2.readToEnd.2 = r.readToEnd.2 := by
  induction sizes generalizing r with
  | nil => rfl
  | cons size sizes ih => exact (ih _).trans (r.snd_readToEnd_read size)

theorem length_remaining_reads (r : FeedReader σ) {sizes : List Nat}
    (h : ∀ size ∈ sizes, size ≠ 0) :
    (r.reads sizes).2.remaining.length ≤ r.remaining.length - sizes.length := by
  induction sizes generalizing r with
  | nil => exact Nat.le_refl _
  | cons size sizes ih =>
      obtain ⟨hsize, hsizes⟩ := List.forall_mem_cons.mp h
      have hlater := ih (r.read size).2 hsizes
      have hsum := congrArg List.length (r.read_append_remaining size)
      rw [List.length_append] at hsum
      have hfirst : (r.read size).2.remaining.length ≤ r.remaining.length - 1 := by
        by_cases hend : r.remaining = []
        · rw [hend, List.length_nil] at hsum ⊢
          omega
        · have hpos := List.length_pos_iff.mpr (mt (r.read_eq_nil_iff hsize).mp hend)
          omega
      rw [List.length_cons]
      show ((r.read size).2.reads sizes).2.remaining.length ≤ _
      omega

/-- Taking in all that is left is a row of reads, the last of which has room for
something and returns nothing. -/
theorem readToEnd_of_reads {r : FeedReader σ} {sizes : List Nat} {size : Nat} (hsize : size ≠ 0)
    (h : ((r.reads sizes).2.read size).1 = []) :
    r.readToEnd = ((r.reads sizes).1.flatten, ((r.reads sizes).2.read size).2) := by
  have hall := r.reads_append_remaining sizes
  rw [((r.reads sizes).2.read_eq_nil_iff hsize).mp h, List.append_nil] at hall
  have hlast := snd_read_of_eq_nil hsize h
  rw [snd_readToEnd_reads] at hlast
  exact Prod.ext (r.fst_readToEnd.trans hall.symm) hlast.symm

/-! ## What is asked of the feed -/

/-- The answers that the feed has given, and those it would still give. -/
def answered (r : FeedReader (Recorded σ)) : List (Option Bytes) :=
  r.feed.answers ++ if r.done then [] else (Feed.blocks r.feed).1.map some ++ [none]

theorem answered_refill (r : FeedReader (Recorded σ)) : r.refill.answered = r.answered := by
  fun_induction refill r with
  | case1 r h => rfl
  | case2 r h feed hnext =>
      rw [answered, answered, if_neg (not_or.mp h).2, Feed.blocks_of_none hnext,
        Recorded.answers_of_next hnext]
      exact List.append_nil _
  | case3 r h block feed hnext _ ih =>
      rw [ih, answered, answered, if_neg (not_or.mp h).2, Feed.blocks_of_some hnext,
        Recorded.answers_of_next hnext, if_neg Bool.false_ne_true, List.append_assoc]
      rfl

theorem answered_reads (r : FeedReader (Recorded σ)) (sizes : List Nat) :
    (r.reads sizes).2.answered = r.answered := by
  induction sizes generalizing r with
  | nil => rfl
  | cons size sizes ih => exact (ih _).trans r.answered_refill

theorem answers_readToEnd (r : FeedReader (Recorded σ)) :
    r.readToEnd.2.feed.answers = r.answered := by
  rw [snd_readToEnd, answered]
  split
  · exact (List.append_nil _).symm
  · exact Recorded.answers_of_blocks r.feed

/-- The reader of the feed without the record. -/
def unrecorded (r : FeedReader (Recorded σ)) : FeedReader σ := ⟨r.feed.feed, r.pending, r.done⟩

theorem unrecorded_refill (r : FeedReader (Recorded σ)) :
    r.refill.unrecorded = r.unrecorded.refill := by
  fun_induction refill r with
  | case1 r h => exact (refill_of_stocked (r := r.unrecorded) h).symm
  | case2 r h feed hnext =>
      obtain ⟨hanswer, rfl⟩ := Prod.mk.inj hnext
      exact (refill_of_none (r := r.unrecorded) h (Prod.ext hanswer rfl)).symm
  | case3 r h block feed hnext _ ih =>
      obtain ⟨hanswer, rfl⟩ := Prod.mk.inj hnext
      exact ih.trans (refill_of_some (r := r.unrecorded) h (Prod.ext hanswer rfl)).symm

theorem unrecorded_read (r : FeedReader (Recorded σ)) (size : Nat) :
    (r.read size).1 = (r.unrecorded.read size).1 ∧
      (r.read size).2.unrecorded = (r.unrecorded.read size).2 := by
  unfold read
  rw [← unrecorded_refill]
  exact ⟨rfl, rfl⟩

theorem fst_reads_unrecorded (r : FeedReader (Recorded σ)) (sizes : List Nat) :
    (r.reads sizes).1 = (r.unrecorded.reads sizes).1 := by
  induction sizes generalizing r with
  | nil => rfl
  | cons size sizes ih =>
      obtain ⟨hbytes, hreader⟩ := r.unrecorded_read size
      have hmore := ih (r.read size).2
      rw [hreader] at hmore
      exact congrArg₂ List.cons hbytes hmore

/-! ## The law of reading -/

/-- However a feed is read, the bytes returned are a front of its blocks put
together, and with all that is left they are the whole; a read returns no more
than was asked for, and nothing only at the end or if nothing was asked for.
All that is left is what any row of reads returns whose last has room for
something and returns nothing, and a row of as many reads as there are bytes
comes that far.  The feed is asked for its blocks in order and once for its
end, and then no more, whatever it would answer. -/
theorem reading_gives_back_the_blocks {σ : Type} [Feed σ] (feed : σ) (sizes : List Nat) :
    let blocks := (Feed.blocks feed).1
    let answers := blocks.map some ++ [none]
    let returned := (reads sizes (FeedReader.mk feed [] false)).1
    let reader := (reads sizes (FeedReader.mk feed [] false)).2
    let recorded := reads sizes (FeedReader.mk (Recorded.mk feed []) [] false)
    returned.flatten ++ reader.readToEnd.1 = blocks.flatten ∧
      returned.flatten <+: blocks.flatten ∧
      List.Forall₂ (fun bytes size => bytes.length ≤ size) returned sizes ∧
      (∀ size, size ≠ 0 → ((reader.read size).1 = [] ↔ returned.flatten = blocks.flatten)) ∧
      (∀ more size, size ≠ 0 → ((reader.reads more).2.read size).1 = [] →
        reader.readToEnd = ((reader.reads more).1.flatten, ((reader.reads more).2.read size).2)) ∧
      (∀ more, (∀ size ∈ more, size ≠ 0) → blocks.flatten.length ≤ more.length →
        ∀ size, ((reader.reads more).2.read size).1 = []) ∧
      recorded.1 = returned ∧ recorded.2.readToEnd.1 = reader.readToEnd.1 ∧
      recorded.2.feed.answers <+: answers ∧ recorded.2.readToEnd.2.feed.answers = answers ∧
      none ∉ answers.dropLast := by
  intro blocks answers returned reader recorded
  have hwhole : returned.flatten ++ reader.remaining = blocks.flatten :=
    reads_append_remaining (FeedReader.mk feed [] false) sizes
  have hsame : recorded.1 = returned := fst_reads_unrecorded _ sizes
  have hrecorded : recorded.1.flatten ++ recorded.2.remaining = blocks.flatten := by
    rw [reads_append_remaining]
    exact congrArg List.flatten (Recorded.fst_blocks feed [])
  have hanswered : recorded.2.answered = answers := by
    rw [answered_reads]
    show [] ++ ((Feed.blocks (Recorded.mk feed [])).1.map some ++ [none]) = answers
    rw [Recorded.fst_blocks]
    rfl
  refine ⟨?_, ⟨_, hwhole⟩, length_reads_le _ sizes, ?_, ?_, ?_, hsame, ?_, ?_, ?_, ?_⟩
  · rw [fst_readToEnd, hwhole]
  · intro size hsize
    rw [read_eq_nil_iff reader hsize, ← hwhole, List.self_eq_append_right]
  · intro more size hsize h
    exact readToEnd_of_reads hsize h
  · intro more hmore hlong size
    have hleft := length_remaining_reads reader hmore
    have hall := congrArg List.length hwhole
    rw [List.length_append] at hall
    have hnone : (reader.reads more).2.remaining = [] :=
      List.eq_nil_of_length_eq_zero (by omega)
    exact read_eq_nil_of_remaining hnone size
  · rw [fst_readToEnd, fst_readToEnd]
    rw [hsame, ← hwhole] at hrecorded
    exact List.append_cancel_left hrecorded
  · exact ⟨_, hanswered⟩
  · rw [answers_readToEnd, hanswered]
  · rw [List.dropLast_concat]
    simp

end FeedReader

end SealedModules
