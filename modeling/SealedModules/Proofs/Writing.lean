/-
# What an output takes

However a byte string is cut up on its way to an output, the output ends up
with the bytes that fit, in their order.  `Output.Takes` says this of a
result: the write succeeds if there is room for all of it and is refused
otherwise, and the output is extended by as many bytes as there is room for.
What is written in several goes is taken like one string (`Takes.append`), and
so what holds of a single write holds of the loop (`writeAll_takes`).

A sealing writer adds nothing but the encoding, whatever its block size.  It
takes bytes whole (`Took`) or breaks off in a chunk of them (`BreaksOff`); of
the loop the chunk is one that starts at a multiple of the block size
(`WritesAll`).  Either way the output takes the bytes encoded, and so it takes
what is written piece by piece (`writePieces_takes`).
-/
import SealedModules.Proofs.Cipher
import SealedModules.Stream.SealingWriter

namespace SealedModules

/-! ## Outputs -/

namespace Output

theorem position_seek {o : Output} {position : Nat} (h : position ≤ o.contents.length) :
    (o.seek position).position = position := by
  simp only [Output.position, seek, List.length_reverse, List.length_take]
  omega

theorem position_le_length (o : Output) : o.position ≤ o.contents.length := by
  simp only [Output.position, contents, List.length_append, List.length_reverse]
  omega

theorem position_of_ahead_eq_nil {o : Output} (h : o.ahead = []) :
    o.position = o.contents.length := by
  simp [Output.position, contents, h]

/-- `o'` is `o` after it took `bytes` at its position. -/
structure Extended (o : Output) (bytes : Bytes) (o' : Output) : Prop where
  passed : o'.passed = bytes.reverse ++ o.passed
  ahead : o'.ahead = o.ahead.drop bytes.length
  room : o'.room = o.room.map (· - bytes.length)
  refusal : o'.refusal = o.refusal

theorem extended_put (o : Output) (bytes : Bytes) : o.Extended bytes (o.put bytes) :=
  ⟨rfl, rfl, rfl, rfl⟩

theorem extended_nil (o : Output) : o.Extended [] o :=
  ⟨rfl, rfl, by simp, rfl⟩

namespace Extended
variable {o o₁ o₂ : Output} {bytes more : Bytes}

theorem append (h₁ : o.Extended bytes o₁) (h₂ : o₁.Extended more o₂) :
    o.Extended (bytes ++ more) o₂ := by
  refine ⟨?_, ?_, ?_, h₂.refusal.trans h₁.refusal⟩
  · rw [h₂.passed, h₁.passed, List.reverse_append, List.append_assoc]
  · rw [h₂.ahead, h₁.ahead, List.drop_drop, List.length_append]
  · rw [h₂.room, h₁.room, Option.map_map]
    congr 1
    funext room
    simp only [Function.comp_apply, List.length_append]
    omega

theorem flush (h : o.Extended bytes o₁) : o.Extended bytes o₁.flush :=
  ⟨h.passed, h.ahead, h.room, h.refusal⟩

theorem position (h : o.Extended bytes o₁) : o₁.position = o.position + bytes.length := by
  unfold Output.position
  rw [h.passed, List.length_append, List.length_reverse, Nat.add_comm]

theorem contents (h : o.Extended bytes o₁) :
    o₁.contents =
      o.contents.take o.position ++ bytes ++ o.contents.drop (o.position + bytes.length) := by
  have hput : o₁.contents = (o.put bytes).contents := by
    unfold Output.contents
    rw [h.passed, h.ahead]
    rfl
  rw [hput, contents_put]

theorem contents_of_ahead_eq_nil (h : o.Extended bytes o₁) (hahead : o.ahead = []) :
    o₁.contents = o.contents ++ bytes := by
  rw [h.contents, position_of_ahead_eq_nil hahead, List.take_length,
    List.drop_eq_nil_of_le (Nat.le_add_right _ _), List.append_nil]

theorem contents_of_contents_eq_nil (h : o.Extended bytes o₁) (hempty : o.contents = []) :
    o₁.contents = bytes := by
  rw [h.contents_of_ahead_eq_nil (List.append_eq_nil_iff.mp hempty).2, hempty, List.nil_append]

end Extended

/-- The result of writing `bytes`, in whatever pieces: as many of them as fit
are taken, and it fails unless that is all. -/
structure Takes (o : Output) (bytes : Bytes) (result : Except Fault Unit × Output) : Prop where
  outcome : result.1 = if o.accepts bytes.length = bytes.length then .ok () else .error o.refusal
  extended : o.Extended (bytes.take (o.accepts bytes.length)) result.2

theorem accepts_le (o : Output) (count : Nat) : o.accepts count ≤ count := by
  unfold accepts
  split
  · exact Nat.le_refl count
  · exact Nat.min_le_right _ _

theorem accepts_eq_iff {o : Output} {count : Nat} :
    o.accepts count = count ↔ ∀ room, o.room = some room → count ≤ room := by
  unfold accepts
  cases o.room with
  | none => exact iff_of_true rfl nofun
  | some room => simp only [Option.some.injEq, forall_eq', min_eq_right_iff]

theorem accepts_of_room_eq_none {o : Output} (h : o.room = none) (count : Nat) :
    o.accepts count = count := by
  rw [accepts, h]

theorem accepts_of_lt {o : Output} {count more : Nat} (h : o.accepts count < count)
    (hle : count ≤ more) : o.accepts more = o.accepts count := by
  unfold accepts at h ⊢
  cases hroom : o.room with
  | none =>
      rw [hroom] at h
      exact absurd h (Nat.lt_irrefl _)
  | some room =>
      rw [hroom] at h
      simp only at h ⊢
      omega

theorem le_accepts {o : Output} {count more : Nat} (h : o.accepts count = count)
    (hle : count ≤ more) : count ≤ o.accepts more := by
  unfold accepts at h ⊢
  cases hroom : o.room with
  | none => exact hle
  | some room =>
      rw [hroom] at h
      simp only at h ⊢
      omega

/-- What an output has no more room for after a write it had no room for
before it. -/
theorem accepts_of_extended {o o' : Output} {bytes : Bytes} (h : o.Extended bytes o')
    (hfit : bytes.length ≤ o.accepts bytes.length) (count : Nat) :
    bytes.length + o'.accepts count = o.accepts (bytes.length + count) := by
  unfold accepts at hfit ⊢
  rw [h.room]
  cases hroom : o.room with
  | none => rfl
  | some room =>
      rw [hroom] at hfit
      simp only [Option.map_some] at hfit ⊢
      omega

namespace Takes
variable {o o' : Output} {bytes more : Bytes}

theorem nil (o : Output) : o.Takes [] (.ok (), o) := by
  have hzero : o.accepts 0 = 0 := Nat.le_zero.mp (o.accepts_le 0)
  exact ⟨by simp [hzero], by simpa using o.extended_nil⟩

theorem accepts_of_ok (h : o.Takes bytes (.ok (), o')) :
    o.accepts bytes.length = bytes.length := by
  by_contra hne
  have := h.outcome
  rw [if_neg hne] at this
  cases this

theorem extended_of_ok (h : o.Takes bytes (.ok (), o')) : o.Extended bytes o' := by
  have := h.extended
  rwa [h.accepts_of_ok, List.take_length] at this

/-- What follows a write that succeeded extends it. -/
theorem append {result : Except Fault Unit × Output} (h : o.Takes bytes (.ok (), o'))
    (hmore : o'.Takes more result) : o.Takes (bytes ++ more) result := by
  have hext := h.extended_of_ok
  have hsum := accepts_of_extended hext h.accepts_of_ok.ge more.length
  constructor
  · rw [hmore.outcome, hext.refusal, List.length_append, ← hsum]
    simp only [Nat.add_left_cancel_iff]
  · rw [List.length_append, ← hsum, List.take_length_add_append]
    exact hext.append hmore.extended

/-- What follows a write that failed makes no difference. -/
theorem append_of_error {fault : Fault} (h : o.Takes bytes (.error fault, o')) (more : Bytes) :
    o.Takes (bytes ++ more) (.error fault, o') := by
  have hless : o.accepts bytes.length < bytes.length := by
    refine Nat.lt_of_le_of_ne (o.accepts_le _) fun heq => ?_
    have := h.outcome
    rw [if_pos heq] at this
    cases this
  have hsame : o.accepts (bytes ++ more).length = o.accepts bytes.length :=
    accepts_of_lt hless (by rw [List.length_append]; omega)
  constructor
  · have := h.outcome
    rw [if_neg hless.ne] at this
    rw [hsame, List.length_append, if_neg (by omega)]
    exact this
  · rw [hsame, List.take_append_of_le_length hless.le]
    exact h.extended

end Takes

theorem accepts_of_le {o : Output} {count fewer : Nat} (h : fewer ≤ o.accepts count) :
    o.accepts fewer = fewer := by
  unfold accepts at h ⊢
  cases hroom : o.room with
  | none => rfl
  | some room =>
      rw [hroom] at h
      exact Nat.min_eq_right (h.trans (Nat.min_le_left _ _))

theorem grants_le (o : Output) (count : Nat) : o.grants count ≤ o.accepts count := by
  unfold grants
  split
  · exact Nat.le_refl _
  · exact Nat.min_le_right _ _

/-- Where there is room for something, the next write takes something. -/
theorem grants_eq_zero_iff {o : Output} {count : Nat} :
    o.grants count = 0 ↔ o.accepts count = 0 := by
  unfold grants
  split
  · rfl
  · omega

/-- A single write is refused if nothing fits, and otherwise puts down what it
takes. -/
theorem write_eq {o : Output} {bytes : Bytes} (hb : bytes ≠ []) :
    o.write bytes =
      if o.accepts bytes.length = 0 then (.error o.refusal, o)
      else (.ok (o.grants bytes.length), o.put (bytes.take (o.grants bytes.length))) := by
  simp only [write, hb, ne_eq, not_false_eq_true, true_and, grants_eq_zero_iff]

theorem takes_put {o : Output} {bytes : Bytes} {count : Nat}
    (h : count ≤ o.accepts bytes.length) :
    o.Takes (bytes.take count) (.ok (), o.put (bytes.take count)) := by
  have hlength : (bytes.take count).length = count := by
    rw [List.length_take, Nat.min_eq_left (h.trans (o.accepts_le _))]
  constructor
  · rw [hlength, accepts_of_le h, if_pos rfl]
  · rw [hlength, accepts_of_le h, List.take_take, Nat.min_self]
    exact o.extended_put _

theorem Takes.of_error {o o' : Output} {bytes : Bytes} {fault : Fault}
    (h : o.Takes bytes (.error fault, o')) :
    fault = o.refusal ∧ o.accepts bytes.length < bytes.length := by
  have houtcome := h.outcome
  split at houtcome
  · cases houtcome
  · rename_i hless
    exact ⟨Except.error.inj houtcome, Nat.lt_of_le_of_ne (o.accepts_le _) hless⟩

/-- An output that did not take everything is full. -/
theorem Takes.room_of_error {o o' : Output} {bytes : Bytes} {fault : Fault}
    (h : o.Takes bytes (.error fault, o')) : o'.room = some 0 := by
  have hless := h.of_error.2
  have hroom := h.extended.room
  unfold accepts at hless hroom
  cases hbound : o.room with
  | none =>
      rw [hbound] at hless
      exact absurd hless (Nat.lt_irrefl _)
  | some room =>
      simp only [hbound] at hless hroom
      rw [hroom, Option.map_some, List.length_take]
      congr 1
      omega

instance : LawfulWriter Output where
  count_pos {o o' bytes count} hb hwrite := by
    have hwrite : o.write bytes = (.ok count, o') := hwrite
    rw [write_eq hb] at hwrite
    split at hwrite
    · cases (Prod.mk.inj hwrite).1
    · rename_i hsome
      obtain rfl := Except.ok.inj (Prod.mk.inj hwrite).1
      exact Nat.pos_of_ne_zero fun hnone => hsome (grants_eq_zero_iff.mp hnone)

theorem takes_of_write_error {o o' : Output} {bytes : Bytes} {fault : Fault} (hb : bytes ≠ [])
    (hwrite : o.write bytes = (.error fault, o')) : o.Takes bytes (.error fault, o') := by
  rw [write_eq hb] at hwrite
  split at hwrite
  · rename_i hnone
    obtain ⟨hfault, rfl⟩ := Prod.mk.inj hwrite
    obtain rfl := Except.error.inj hfault
    have hlength := List.length_pos_iff.mpr hb
    refine ⟨?_, ?_⟩
    · rw [hnone, if_neg hlength.ne]
    · rw [hnone, List.take_zero]
      exact o.extended_nil
  · cases (Prod.mk.inj hwrite).1

theorem takes_of_write_ok {o o' : Output} {bytes : Bytes} {count : Nat} (hb : bytes ≠ [])
    (hwrite : o.write bytes = (.ok count, o')) : o.Takes (bytes.take count) (.ok (), o') := by
  rw [write_eq hb] at hwrite
  split at hwrite
  · cases (Prod.mk.inj hwrite).1
  · obtain ⟨hok, rfl⟩ := Prod.mk.inj hwrite
    obtain rfl := Except.ok.inj hok
    exact takes_put (o.grants_le bytes.length)

theorem writeAll_takes (o : Output) (bytes : Bytes) : o.Takes bytes (Writer.writeAll o bytes) := by
  refine Writer.writeAll_runs Takes.nil takes_of_write_error ?_ o bytes
  intro o o' bytes count result hb hwrite hrest
  have hall := (takes_of_write_ok hb hwrite).append hrest
  rwa [List.take_append_drop] at hall

end Output

/-! ## Sealing writers -/

namespace SealingWriter

/-- The writer is another after it took the bytes whole. -/
structure Took (w : SealingWriter) (bytes : Bytes) (w' : SealingWriter) : Prop where
  output : w.output.Takes (w.sealer.encode bytes) (.ok (), w'.output)
  written : w'.written = w.written + bytes.length
  sealer : w'.sealer = w.sealer
  blockSize : w'.blockSize = w.blockSize

theorem took_nil (w : SealingWriter) : w.Took [] w := by
  refine ⟨?_, rfl, rfl, rfl⟩
  rw [Sealer.encode_nil]
  exact Output.Takes.nil _

theorem Took.append {w w₁ w₂ : SealingWriter} {bytes more : Bytes} (h : w.Took bytes w₁)
    (hmore : w₁.Took more w₂) : w.Took (bytes ++ more) w₂ := by
  refine ⟨?_, ?_, hmore.sealer.trans h.sealer, hmore.blockSize.trans h.blockSize⟩
  · have hout := hmore.output
    rw [h.sealer] at hout
    rw [Sealer.encode_append]
    exact h.output.append hout
  · rw [hmore.written, h.written, List.length_append, Nat.add_assoc]

theorem Took.fits {w w' : SealingWriter} {bytes : Bytes} (h : w.Took bytes w') :
    w.output.accepts bytes.length = bytes.length := by
  have := h.output.accepts_of_ok
  rwa [Sealer.length_encode] at this

/-- The writer is another after it took the bytes whole, and of the chunk
behind them only a part. -/
structure BreaksOff (w : SealingWriter) (bytes chunk : Bytes) (w' : SealingWriter) : Prop where
  output : w.output.Takes (w.sealer.encode (bytes ++ chunk)) (.error w.output.refusal, w'.output)
  fits : w.output.accepts bytes.length = bytes.length
  written : w'.written = w.written + bytes.length
  blockSize : w'.blockSize = w.blockSize

theorem Took.breaksOff {w w₁ w₂ : SealingWriter} {bytes more chunk : Bytes} (h : w.Took bytes w₁)
    (hmore : w₁.BreaksOff more chunk w₂) : w.BreaksOff (bytes ++ more) chunk w₂ := by
  have hext := h.output.extended_of_ok
  refine ⟨?_, ?_, ?_, hmore.blockSize.trans h.blockSize⟩
  · have hout := hmore.output
    rw [h.sealer, hext.refusal] at hout
    rw [List.append_assoc, Sealer.encode_append]
    exact h.output.append hout
  · have hsum := Output.accepts_of_extended hext h.output.accepts_of_ok.ge more.length
    rw [Sealer.length_encode, hmore.fits] at hsum
    rw [List.length_append, ← hsum]
  · rw [hmore.written, h.written, List.length_append, Nat.add_assoc]

theorem BreaksOff.exists_part {w w' : SealingWriter} {bytes chunk : Bytes}
    (h : w.BreaksOff bytes chunk w') :
    ∃ part, part <+: w.sealer.encode chunk ∧ part.length < chunk.length ∧
      w.output.Extended (w.sealer.encode bytes ++ part) w'.output := by
  have hless := h.output.of_error.2
  have hext := h.output.extended
  rw [Sealer.length_encode] at hless hext
  obtain ⟨count, hcount⟩ : ∃ count, w.output.accepts (bytes ++ chunk).length = count := ⟨_, rfl⟩
  have hwhole : bytes.length ≤ count :=
    hcount ▸ Output.le_accepts h.fits (by rw [List.length_append]; omega)
  rw [hcount] at hless hext
  rw [Sealer.encode_append, List.take_append, Sealer.length_encode,
    List.take_of_length_le (w.sealer.length_encode bytes ▸ hwhole)] at hext
  refine ⟨_, List.take_prefix _ _, ?_, hext⟩
  rw [List.length_append] at hless
  rw [List.length_take]
  omega

theorem BreaksOff.full {w w' : SealingWriter} {bytes chunk : Bytes}
    (h : w.BreaksOff bytes chunk w') : w'.output.room = some 0 :=
  h.output.room_of_error

/-- All that a single write can do. -/
inductive Writes (w : SealingWriter) (bytes : Bytes) : Except Fault Nat × SealingWriter → Prop where
  | takes {w' : SealingWriter} (h : w.Took (bytes.take w.blockSize) w') :
      Writes w bytes (.ok (bytes.take w.blockSize).length, w')
  | breaksOff {w' : SealingWriter} (h : w.BreaksOff [] (bytes.take w.blockSize) w') :
      Writes w bytes (.error w.output.refusal, w')

theorem write_writes (w : SealingWriter) (bytes : Bytes) : w.Writes bytes (w.write bytes) := by
  have htakes := w.output.writeAll_takes (w.sealer.encode (bytes.take w.blockSize))
  rcases hwrite : Writer.writeAll w.output (w.sealer.encode (bytes.take w.blockSize)) with
    ⟨fault | ⟨⟩, o⟩
  · have hresult : w.write bytes = (.error fault, { w with output := o }) := by
      simp only [write, hwrite]
    rw [hwrite] at htakes
    obtain ⟨rfl, -⟩ := htakes.of_error
    rw [hresult]
    exact .breaksOff ⟨htakes, (Output.Takes.nil w.output).accepts_of_ok, rfl, rfl⟩
  · have hresult : w.write bytes = (.ok (bytes.take w.blockSize).length, { w with
        output := o
        written := w.written + (bytes.take w.blockSize).length }) := by
      simp only [write, hwrite]
    rw [hwrite] at htakes
    rw [hresult]
    exact .takes ⟨htakes, rfl, rfl, rfl⟩

instance : LawfulWriter SealingWriter where
  count_pos {w w' bytes count} hb hwrite := by
    have hwrites : w.Writes bytes (.ok count, w') := hwrite ▸ w.write_writes bytes
    have hpos := w.blockSize_pos
    cases hwrites with
    | takes h =>
        have := List.length_pos_iff.mpr hb
        rw [List.length_take]
        omega

/-- All that the loop can do. -/
inductive WritesAll (w : SealingWriter) (bytes : Bytes) :
    Except Fault Unit × SealingWriter → Prop where
  | takes {w' : SealingWriter} (h : w.Took bytes w') : WritesAll w bytes (.ok (), w')
  | breaksOff {w' : SealingWriter} (cut : Nat) (hcut : w.blockSize ∣ cut)
      (h : w.BreaksOff (bytes.take cut) ((bytes.drop cut).take w.blockSize) w') :
      WritesAll w bytes (.error w.output.refusal, w')

theorem WritesAll.after_chunk {w w' : SealingWriter} {bytes : Bytes} {count : Nat}
    {result : Except Fault Unit × SealingWriter} (hcount : (bytes.take w.blockSize).length = count)
    (h : w.Took (bytes.take count) w') (hrest : w'.WritesAll (bytes.drop count) result) :
    w.WritesAll bytes result := by
  cases hrest with
  | takes hmore =>
      have hall := h.append hmore
      rw [List.take_append_drop] at hall
      exact .takes hall
  | breaksOff cut hcut hmore =>
      have hall := h.breaksOff hmore
      -- there is a chunk behind the first one, so the first one is as long as a block
      have hfull : count = w.blockSize := by
        obtain ⟨part, -, hless, -⟩ := hall.exists_part
        simp only [List.length_take, List.length_drop] at hcount hless
        omega
      rw [← List.take_add, List.drop_drop, h.blockSize] at hall
      rw [h.output.extended_of_ok.refusal]
      exact .breaksOff (count + cut)
        (Nat.dvd_add (hfull ▸ Nat.dvd_refl count) (h.blockSize ▸ hcut)) hall

/-- The loop takes chunk by chunk, each as long as a block but the last. -/
theorem writeAll_writesAll (w : SealingWriter) (bytes : Bytes) :
    w.WritesAll bytes (Writer.writeAll w bytes) := by
  refine Writer.writeAll_runs (fun w => .takes w.took_nil) ?_ ?_ w bytes
  · intro w w' bytes fault hb hwrite
    have hwrites : w.Writes bytes (.error fault, w') := hwrite ▸ w.write_writes bytes
    cases hwrites with
    | breaksOff h => exact .breaksOff 0 (Nat.dvd_zero _) h
  · intro w w' bytes count result hb hwrite hrest
    have hwrites : w.Writes bytes (.ok count, w') := hwrite ▸ w.write_writes bytes
    cases hwrites with
    | takes h =>
        have hchunk : bytes.take w.blockSize = bytes.take (bytes.take w.blockSize).length := by
          rw [List.length_take, List.take_eq_take_iff]
          omega
        rw [hchunk] at h
        exact .after_chunk rfl h hrest

theorem WritesAll.output {w : SealingWriter} {bytes : Bytes}
    {result : Except Fault Unit × SealingWriter} (h : w.WritesAll bytes result) :
    w.output.Takes (w.sealer.encode bytes) (result.1, result.2.output) := by
  cases h with
  | takes h => exact h.output
  | breaksOff cut hcut h =>
      have hall := h.output.append_of_error
        (w.sealer.encode (((bytes.drop cut).drop w.blockSize)))
      rw [← Sealer.encode_append, List.append_assoc, List.take_append_drop,
        List.take_append_drop] at hall
      exact hall

/-- Pieces written one after another are taken like what they make
together. -/
theorem writePieces_takes (w : SealingWriter) (pieces : List Bytes) :
    w.output.Takes (w.sealer.encode pieces.flatten)
      ((w.writePieces pieces).1, (w.writePieces pieces).2.output) := by
  induction pieces generalizing w with
  | nil => exact w.took_nil.output
  | cons piece pieces ih =>
      have hfirst := w.writeAll_writesAll piece
      rw [writePieces, List.flatten_cons, Sealer.encode_append]
      generalize Writer.writeAll w piece = result at hfirst ⊢
      have hout := hfirst.output
      cases hfirst with
      | takes h => exact hout.append (h.sealer ▸ ih _)
      | breaksOff cut hcut h => exact hout.append_of_error _

end SealingWriter

end SealedModules
