/-
# What a sealing writer has accepted

A sealing writer is asked to write, or to write all, any number of times.  Its
output may cut writes short wherever it likes, has room for so many bytes, and
then fails.  Each request ends in one of two ways (`Answers`): its bytes are
taken whole, or it breaks off in a chunk.  A request that breaks off has filled
the output to the last byte (`BreaksOff.full`), and that is why nothing later
leaves a trace: what is refused changes no output, and a request for no bytes
makes no write at all.

What is taken is told by `Took` and composes, so a row of requests is taken as
their bytes put together (`took_serve`).  The count follows the chunks and not
the output: behind a failure the output may hold more than was counted, and
never less.
-/
import SealedModules.Proofs.Writing

namespace SealedModules

/-! ## Outputs -/

namespace Output

/-- The output is reached from another by single writes, none of them of more
than `most` bytes. -/
inductive WrittenFrom (most : Nat) (o : Output) : Output → Prop where
  | start : WrittenFrom most o o
  | write {before : Output} {bytes : Bytes} (h : WrittenFrom most o before)
      (hsize : bytes.length ≤ most) : WrittenFrom most o (before.write bytes).2

theorem WrittenFrom.trans {most : Nat} {o o₁ o₂ : Output} (h : WrittenFrom most o o₁)
    (hmore : WrittenFrom most o₁ o₂) : WrittenFrom most o o₂ := by
  induction hmore with
  | start => exact h
  | write _ hsize ih => exact .write ih hsize

/-- The loop offers what is left of the bytes, and that is never more of them. -/
theorem writtenFrom_writeAll {most : Nat} (o : Output) {bytes : Bytes}
    (hsize : bytes.length ≤ most) : WrittenFrom most o (Writer.writeAll o bytes).2 := by
  refine Writer.writeAll_runs (R := fun o bytes result => bytes.length ≤ most →
    WrittenFrom most o result.2) (fun o _ => .start) ?_ ?_ o bytes hsize
  · intro o o' bytes fault hb hwrite hsize
    have hfirst : WrittenFrom most o (o.write bytes).2 := .write .start hsize
    rwa [show o.write bytes = _ from hwrite] at hfirst
  · intro o o' bytes count result hb hwrite hrest hsize
    have hfirst : WrittenFrom most o (o.write bytes).2 := .write .start hsize
    rw [show o.write bytes = _ from hwrite] at hfirst
    refine hfirst.trans (hrest ?_)
    rw [List.length_drop]
    omega

theorem writeAll_of_full {o : Output} (h : o.room = some 0) (bytes : Bytes) :
    Writer.writeAll o bytes = (if bytes = [] then .ok () else .error o.refusal, o) := by
  rw [Writer.writeAll]
  split
  · rfl
  · rename_i hb
    have hnone : o.accepts bytes.length = 0 := by
      rw [accepts, h]
      exact Nat.zero_min _
    have hwrite : Writer.write o bytes = (.error o.refusal, o) :=
      (write_eq hb).trans (if_pos hnone)
    rw [hwrite]

end Output

namespace SealingWriter

/-! ## Requests -/

/-- What can be asked of a sealing writer. -/
inductive Call where
  | write (bytes : Bytes)
  | writeAll (bytes : Bytes)
deriving DecidableEq

/-- The bytes of a request. -/
def Call.bytes : Call → Bytes
  | .write bytes => bytes
  | .writeAll bytes => bytes

/-- How many of its bytes a request can be answered to have taken. -/
def Call.goal (most : Nat) : Call → Nat
  | .write bytes => min bytes.length most
  | .writeAll bytes => bytes.length

/-- A request may break off where a chunk starts: a single write has one
chunk, and the loop has one at every `most` bytes. -/
def Call.Cuts (most cut : Nat) : Call → Prop
  | .write _ => cut = 0
  | .writeAll _ => most ∣ cut

/-- The answer to a request: how many bytes were taken, or a fault. -/
def answer (w : SealingWriter) : Call → Except Fault Nat × SealingWriter
  | .write bytes => w.write bytes
  | .writeAll bytes =>
    let result := Writer.writeAll w bytes
    (result.1.map fun _ => bytes.length, result.2)

/-- The answers to a row of requests, and the writer afterwards. -/
def serve : List Call → SealingWriter → List (Except Fault Nat) × SealingWriter
  | [], w => ([], w)
  | call :: calls, w =>
    let later := serve calls (w.answer call).2
    ((w.answer call).1 :: later.1, later.2)

/-- The bytes that were taken according to the answers. -/
def accepted : List Call → List (Except Fault Nat) → Bytes
  | call :: calls, .ok count :: answers => call.bytes.take count ++ accepted calls answers
  | _ :: calls, .error _ :: answers => accepted calls answers
  | _, _ => []

/-! ## One request -/

/-- All that a request can do. -/
inductive Answers (w : SealingWriter) (call : Call) : Except Fault Nat × SealingWriter → Prop where
  | takes {w' : SealingWriter} (h : w.Took (call.bytes.take (call.goal w.blockSize)) w') :
      Answers w call (.ok (call.goal w.blockSize), w')
  | breaksOff {w' : SealingWriter} (cut : Nat) (hcut : call.Cuts w.blockSize cut)
      (h : w.BreaksOff (call.bytes.take cut) ((call.bytes.drop cut).take w.blockSize) w') :
      Answers w call (.error w.output.refusal, w')

theorem answer_answers (w : SealingWriter) (call : Call) : w.Answers call (w.answer call) := by
  cases call with
  | writeAll bytes =>
      have hwrites := w.writeAll_writesAll bytes
      rw [answer]
      generalize Writer.writeAll w bytes = result at hwrites
      cases hwrites with
      | takes h => exact .takes ((List.take_length (l := bytes)).symm ▸ h)
      | breaksOff cut hcut h => exact .breaksOff cut hcut h
  | write bytes =>
      have hwrites := w.write_writes bytes
      show w.Answers (.write bytes) (w.write bytes)
      generalize w.write bytes = result at hwrites
      cases hwrites with
      | takes h =>
          have hgoal : (bytes.take w.blockSize).length = Call.goal w.blockSize (.write bytes) := by
            rw [List.length_take, Nat.min_comm]
            rfl
          have hblock : bytes.take w.blockSize =
              bytes.take (Call.goal w.blockSize (.write bytes)) := by
            rw [List.take_eq_take_iff, Call.goal]
            omega
          rw [hblock] at h
          rw [hgoal]
          exact .takes h
      | breaksOff h => exact .breaksOff 0 rfl h

/-! ## What requests preserve -/

section

variable {P : SealingWriter → Prop} (hwrite : ∀ v bytes, P v → P (v.write bytes).2)
include hwrite

/-- What every single write preserves is preserved by the loop. -/
theorem after_writeAll {w : SealingWriter} (h : P w) (bytes : Bytes) :
    P (Writer.writeAll w bytes).2 := by
  refine Writer.writeAll_runs (R := fun w _ result => P w → P result.2) (fun w h => h) ?_ ?_ w
    bytes h
  · intro w w' bytes fault hb hfirst h
    have hnext := hwrite w bytes h
    rwa [show w.write bytes = _ from hfirst] at hnext
  · intro w w' bytes count result hb hfirst hrest h
    have hnext := hwrite w bytes h
    rw [show w.write bytes = _ from hfirst] at hnext
    exact hrest hnext

theorem after_serve {w : SealingWriter} (h : P w) (calls : List Call) : P (w.serve calls).2 := by
  induction calls generalizing w with
  | nil => exact h
  | cons call calls ih =>
      refine ih ?_
      cases call with
      | write bytes => exact hwrite w bytes h
      | writeAll bytes => exact after_writeAll hwrite h bytes

end

theorem blockSize_write (w : SealingWriter) (bytes : Bytes) :
    (w.write bytes).2.blockSize = w.blockSize := by
  have hwrites := w.write_writes bytes
  generalize w.write bytes = result at hwrites
  cases hwrites with
  | takes h => exact h.blockSize
  | breaksOff h => exact h.blockSize

theorem blockSize_serve (w : SealingWriter) (calls : List Call) :
    (w.serve calls).2.blockSize = w.blockSize := by
  refine after_serve (P := fun v => v.blockSize = w.blockSize) ?_ rfl calls
  intro v bytes h
  exact (v.blockSize_write bytes).trans h

/-- Whatever is written after a failure, the writer stays as it is. -/
theorem write_of_full {w : SealingWriter} (h : w.output.room = some 0) (bytes : Bytes) :
    (w.write bytes).2 = w := by
  unfold write
  simp only [Output.writeAll_of_full h]
  by_cases hb : w.sealer.encode (bytes.take w.blockSize) = []
  · have hempty : (bytes.take w.blockSize).length = 0 := by
      rw [← w.sealer.length_encode, hb]
      rfl
    simp only [if_pos hb, hempty, Nat.add_zero]
  · simp only [if_neg hb]

theorem serve_of_full {w : SealingWriter} (h : w.output.room = some 0) (calls : List Call) :
    (w.serve calls).2 = w := by
  refine after_serve (P := fun v => v = w) ?_ rfl calls
  rintro v bytes rfl
  exact write_of_full h bytes

theorem output_write (w : SealingWriter) (bytes : Bytes) :
    (w.write bytes).2.output =
      (Writer.writeAll w.output (w.sealer.encode (bytes.take w.blockSize))).2 := by
  rcases hwrite : Writer.writeAll w.output (w.sealer.encode (bytes.take w.blockSize)) with
    ⟨fault | ⟨⟩, o⟩
  · simp only [write, hwrite]
  · simp only [write, hwrite]

theorem fst_write (w : SealingWriter) (bytes : Bytes) :
    (w.write bytes).1 =
      if w.output.accepts (min bytes.length w.blockSize) = min bytes.length w.blockSize
      then .ok (min bytes.length w.blockSize) else .error w.output.refusal := by
  have houtcome := (w.output.writeAll_takes (w.sealer.encode (bytes.take w.blockSize))).outcome
  rw [Sealer.length_encode, List.length_take, Nat.min_comm] at houtcome
  rcases hwrite : Writer.writeAll w.output (w.sealer.encode (bytes.take w.blockSize)) with
    ⟨fault | ⟨⟩, o⟩
  · rw [hwrite] at houtcome
    split at houtcome
    · cases houtcome
    · rename_i hless
      rw [if_neg hless, ← Except.error.inj houtcome]
      simp only [write, hwrite]
  · rw [hwrite] at houtcome
    split at houtcome
    · rename_i hall
      rw [if_pos hall]
      simp only [write, hwrite, List.length_take, Nat.min_comm]
    · cases houtcome

theorem writtenFrom_write (w : SealingWriter) (bytes : Bytes) :
    w.output.WrittenFrom w.blockSize (w.write bytes).2.output := by
  have hblock : (w.sealer.encode (bytes.take w.blockSize)).length ≤ w.blockSize := by
    rw [Sealer.length_encode, List.length_take]
    exact Nat.min_le_left _ _
  rw [output_write]
  exact w.output.writtenFrom_writeAll hblock

theorem writtenFrom_serve (w : SealingWriter) (calls : List Call) :
    w.output.WrittenFrom w.blockSize (w.serve calls).2.output := by
  have hinvariant := after_serve (P := fun v =>
    w.output.WrittenFrom w.blockSize v.output ∧ v.blockSize = w.blockSize) ?_ ⟨.start, rfl⟩ calls
  · exact hinvariant.1
  · rintro v bytes ⟨hwritten, hsize⟩
    have hnext := v.writtenFrom_write bytes
    rw [hsize] at hnext
    exact ⟨hwritten.trans hnext, (v.blockSize_write bytes).trans hsize⟩

/-! ## Rows of requests -/

/-- As long as no request fails, what the answers say was taken. -/
theorem took_serve {w : SealingWriter} {calls : List Call}
    (hok : ∀ fault, .error fault ∉ (w.serve calls).1) :
    w.Took (accepted calls (w.serve calls).1) (w.serve calls).2 := by
  induction calls generalizing w with
  | nil => exact w.took_nil
  | cons call calls ih =>
      have hanswers := w.answer_answers call
      have hserve : w.serve (call :: calls) =
          ((w.answer call).1 :: ((w.answer call).2.serve calls).1,
            ((w.answer call).2.serve calls).2) := rfl
      rw [hserve] at hok ⊢
      generalize w.answer call = result at hanswers hok
      cases hanswers with
      | takes h =>
          have hrest := ih fun fault hmem =>
            hok fault (List.mem_cons_of_mem _ hmem)
          exact h.append hrest
      | breaksOff cut hcut h => exact absurd List.mem_cons_self (hok _)

/-! ## The law of accepting -/

/-- Whatever a sealing writer on any output is asked, the output meets no write
of more than a block.  A single write is answered with a block or what is left
of one, unless there is no room for it.

As long as no request fails, the output has taken the accepted bytes encoded,
and they are counted.  The first request that fails does so in a chunk: what was
taken whole is counted, the output has taken that and less than the whole chunk
behind it, encoded, and whatever is asked afterwards changes nothing. -/
theorem sealing_writer_counts_whole_chunks (o : Output) (sealer : Sealer) (blockSize : Nat)
    (calls : List Call) :
    let most := max blockSize 1
    let answers := ((ofOutput o sealer blockSize).serve calls).1
    let writer := ((ofOutput o sealer blockSize).serve calls).2
    let taken := accepted calls answers
    o.WrittenFrom most writer.output ∧
      (∀ bytes, (writer.write bytes).1 =
        if writer.output.accepts (min bytes.length most) = min bytes.length most
        then .ok (min bytes.length most) else .error writer.output.refusal) ∧
      ((∀ fault, .error fault ∉ answers) →
        o.Extended (sealer.encode taken) writer.output ∧ writer.written = taken.length ∧
        ∀ call fault failed, writer.answer call = (.error fault, failed) →
          ∃ cut, call.Cuts most cut ∧
            let whole := taken ++ call.bytes.take cut
            let chunk := (call.bytes.drop cut).take most
            failed.written = whole.length ∧
            (∃ inner, o.Extended inner failed.output ∧ inner <+: sealer.encode (whole ++ chunk) ∧
              failed.written ≤ inner.length ∧ inner.length < (whole ++ chunk).length) ∧
            ∀ later, (failed.serve later).2 = failed) := by
  intro most answers writer taken
  have hblock : writer.blockSize = most := blockSize_serve _ calls
  refine ⟨writtenFrom_serve (ofOutput o sealer blockSize) calls, fun bytes => ?_, fun hok => ?_⟩
  · rw [← hblock]
    exact writer.fst_write bytes
  have htook : (ofOutput o sealer blockSize).Took taken writer := took_serve hok
  refine ⟨htook.output.extended_of_ok, htook.written.trans (Nat.zero_add _),
    fun call fault failed hfailed => ?_⟩
  have hanswers := writer.answer_answers call
  rw [hfailed] at hanswers
  cases hanswers with
  | breaksOff cut hcut h =>
      rw [hblock] at hcut h
      refine ⟨cut, hcut, ?_⟩
      intro whole chunk
      have hall : (ofOutput o sealer blockSize).BreaksOff whole chunk failed := htook.breaksOff h
      obtain ⟨part, hpart, hless, hout⟩ := hall.exists_part
      have hwritten : failed.written = whole.length := hall.written.trans (Nat.zero_add _)
      have hinner : (sealer.encode whole ++ part).length = whole.length + part.length := by
        rw [List.length_append, Sealer.length_encode]
      have hbegins : sealer.encode whole ++ part <+: sealer.encode (whole ++ chunk) := by
        rw [Sealer.encode_append sealer whole]
        exact (List.prefix_append_right_inj _).mpr hpart
      have hless : whole.length + part.length < (whole ++ chunk).length :=
        (Nat.add_lt_add_left hless _).trans_eq List.length_append.symm
      exact ⟨hwritten, ⟨_, hout, hbegins, hwritten ▸ hinner ▸ Nat.le_add_right _ _,
        hinner.trans_lt hless⟩, serve_of_full h.full⟩

/-- The law at an output with room for seven bytes that cuts its first two
writes short: a single write of six bytes takes four, writing nothing takes
nothing, and writing seven more breaks off with three of the next four. -/
theorem sealing_writer_breaks_off_in_a_chunk :
    let next : ByteTable := Vector.ofFn fun i => UInt8.ofNat (i.val + 1)
    let sealer : Sealer := ⟨{}, ⟨next, next⟩, Sealer.defaultSignature⟩
    let o : Output := { room := some 7, plan := [3, 0] }
    let calls : List Call := [.write [1, 2, 3, 4, 5, 6], .writeAll []]
    let writer := ((ofOutput o sealer 4).serve calls).2
    let failed := (writer.answer (.writeAll [7, 8, 9, 10, 11, 12, 13])).2
    ((ofOutput o sealer 4).serve calls).1 = [.ok 4, .ok 0] ∧ writer.written = 4 ∧
      writer.output.contents = [2, 3, 4, 5] ∧
      (writer.answer (.writeAll [7, 8, 9, 10, 11, 12, 13])).1 = .error o.refusal ∧
      failed.output.contents = [2, 3, 4, 5, 8, 9, 10] ∧ failed.output.sizes = [3, 1, 3] ∧
      failed.written = 4 ∧ (failed.serve [.write [1], .writeAll [], .writeAll [2, 3]]).2 = failed := by
  intro next sealer o calls writer failed
  have hanswers : ((ofOutput o sealer 4).serve calls).1 = [.ok 4, .ok 0] := by decide +kernel
  have hok : ∀ fault, .error fault ∉ ((ofOutput o sealer 4).serve calls).1 := by
    rw [hanswers]
    simp
  obtain ⟨-, -, hlaw⟩ := sealing_writer_counts_whole_chunks o sealer 4 calls
  obtain ⟨-, -, hbreaks⟩ := hlaw hok
  have hfault : (writer.answer (.writeAll [7, 8, 9, 10, 11, 12, 13])).1 = .error o.refusal := by
    decide +kernel
  obtain ⟨cut, -, -, -, hstays⟩ := hbreaks _ o.refusal failed (Prod.ext hfault rfl)
  exact ⟨hanswers, by decide +kernel, by decide +kernel, hfault, by decide +kernel,
    by decide +kernel, by decide +kernel, hstays _⟩

end SealingWriter

end SealedModules
