/-
# The grammar of scripts

What the interpreter takes for a script is told by its significant lines: the
trimmed lines, each with its number, that are neither blank nor a comment.
There is none, or one that is a statement (`Stands`).  The grammar is that of a
statement (`Denotes`): `return ` and a decimal of 64 bits, or `error ` and a
message, which is what the rest of the line is without the blanks around it.

If not, the first line at fault is reported: one that is no statement, or one
that follows a statement (`FirstAtFault`).

The text is split at its line feeds alone, and a carriage return before one is
then trimmed off with the blanks.  This leaves the lines that a line feed ends
with or without a carriage return before it (`significantLines_eq`), for such a
return is a blank at the end of its line, and what follows the last line feed,
if it is empty, is not significant.
-/
import Mathlib.Data.List.Forall2
import Mathlib.Data.Nat.Digits.Defs
import SealedModules.Proofs.Loading
import SealedModules.Proofs.Scripts

namespace SealedModules

namespace Text

/-! ## Lines -/

/-- The lines of a text.  A line feed ends one, and takes a carriage return
before it with it; the last line need not be ended. -/
def lines : List Char → List (List Char)
  | [] => []
  | '\n' :: cs => [] :: lines cs
  | '\r' :: '\n' :: cs => [] :: lines cs
  | c :: cs =>
    match lines cs with
    | [] => [[c]]
    | line :: later => (c :: line) :: later

/-- A piece between two line feeds that is the given line, or the line and a
carriage return. -/
def IsEnded (piece line : List Char) : Prop := piece = line ∨ piece = line ++ ['\r']

theorem IsEnded.trim_eq {piece line : List Char} (h : IsEnded piece line) :
    trim piece = trim line := by
  obtain rfl | rfl := h
  · rfl
  · obtain ⟨front, back, hline, hfront, hback, htrimmed⟩ := trims_trim line
    refine (trims_iff.mp ⟨front, back ++ ['\r'], ?_, hfront, ?_, htrimmed⟩).symm
    · rw [← List.append_assoc, ← List.append_assoc, List.append_assoc front, ← hline]
    · intro c hc
      rcases List.mem_append.mp hc with hc | hc
      · exact hback c hc
      · obtain rfl := List.mem_singleton.mp hc
        decide

/-- A text split at its line feeds are its lines, and maybe an empty piece. -/
theorem exists_split_lines (cs : List Char) : ∃ pieces,
    (split '\n' cs = pieces ∨ split '\n' cs = pieces ++ [[]]) ∧
      List.Forall₂ IsEnded pieces (lines cs) := by
  -- the empty piece is what follows the last line feed, and stays the last piece throughout
  fun_induction lines cs with
  | case1 => exact ⟨[], .inr rfl, .nil⟩
  | case2 cs ih =>
      obtain ⟨pieces, hsplit, hlines⟩ := ih
      refine ⟨[] :: pieces, ?_, .cons (.inl rfl) hlines⟩
      exact hsplit.imp (congrArg (List.cons [])) (congrArg (List.cons []))
  | case3 cs ih =>
      obtain ⟨pieces, hsplit, hlines⟩ := ih
      refine ⟨['\r'] :: pieces, ?_, .cons (.inr rfl) hlines⟩
      have hreturn : split '\n' ('\r' :: '\n' :: cs) = ['\r'] :: split '\n' cs := rfl
      rw [hreturn]
      exact hsplit.imp (congrArg (List.cons ['\r'])) (congrArg (List.cons ['\r']))
  | case4 c cs hfeed hreturn hnil ih =>
      obtain ⟨pieces, hsplit, hlines⟩ := ih
      rw [hnil, List.forall₂_nil_right_iff] at hlines
      subst hlines
      have hempty : split '\n' cs = [[]] := hsplit.resolve_left (split_ne_nil _ cs)
      exact ⟨[[c]], .inl (by rw [split, if_neg hfeed, hempty]), .cons (.inl rfl) .nil⟩
  | case5 c cs hfeed hreturn line later hcons ih =>
      obtain ⟨pieces, hsplit, hlines⟩ := ih
      rw [hcons] at hlines
      obtain ⟨piece, others, hpiece, hothers, rfl⟩ := List.forall₂_cons_right_iff.mp hlines
      refine ⟨(c :: piece) :: others, ?_, .cons ?_ hothers⟩
      · refine hsplit.imp (fun h => ?_) (fun h => ?_)
        · rw [split, if_neg hfeed, h]
        · rw [split, if_neg hfeed, h]
          rfl
      · exact hpiece.imp (congrArg (List.cons c)) (congrArg (List.cons c))

theorem trimmed_lines (cs : List Char) :
    (split '\n' cs).map trim = (lines cs).map trim ∨
      (split '\n' cs).map trim = (lines cs).map trim ++ [[]] := by
  obtain ⟨pieces, hsplit, hlines⟩ := exists_split_lines cs
  have hpieces : pieces.map trim = (lines cs).map trim := by
    rw [← List.forall₂_eq_eq_eq, List.forall₂_map_left_iff, List.forall₂_map_right_iff]
    exact hlines.imp fun _ _ => IsEnded.trim_eq
  rw [← hpieces]
  refine hsplit.imp (fun h => ?_) (fun h => ?_)
  · rw [h]
  · rw [h, List.map_append]
    rfl

/-! ## Numbers -/

/-- A run of digits, and the number it is in base ten. -/
structure Numeral (digits : List Char) (n : Nat) : Prop where
  ne_nil : digits ≠ []
  digit : ∀ c ∈ digits, '0' ≤ c ∧ c ≤ '9'
  value : Nat.ofDigits 10 (digits.reverse.map fun c => c.toNat - '0'.toNat) = n

/-- A decimal with at most one sign, and the number it is. -/
inductive Decimal : List Char → Int → Prop where
  | unsigned {digits : List Char} {n : Nat} (h : Numeral digits n) : Decimal digits n
  | plus {digits : List Char} {n : Nat} (h : Numeral digits n) : Decimal ('+' :: digits) n
  | minus {digits : List Char} {n : Nat} (h : Numeral digits n) : Decimal ('-' :: digits) (-n)

theorem isDigit_iff (c : Char) : c.isDigit = true ↔ '0' ≤ c ∧ c ≤ '9' := by
  rw [Char.isDigit, Bool.and_eq_true, decide_eq_true_iff, decide_eq_true_iff]
  rfl

theorem foldl_eq_ofDigits (digits : List Char) :
    digits.foldl (fun n c => 10 * n + (c.toNat - 48)) 0 =
      Nat.ofDigits 10 (digits.reverse.map fun c => c.toNat - '0'.toNat) := by
  rw [Nat.ofDigits_eq_foldr, List.foldr_map, List.foldr_reverse]
  congr 1
  funext n c
  exact Nat.add_comm _ _

theorem readNat?_eq_some_iff {cs : List Char} {n : Nat} :
    readNat? cs = some n ↔ Numeral cs n := by
  rw [readNat?, foldl_eq_ofDigits, Option.ite_none_right_eq_some, List.all_eq_true]
  constructor
  · rintro ⟨⟨hne, hdigit⟩, hvalue⟩
    exact ⟨hne, fun c hc => (isDigit_iff c).mp (hdigit c hc), Option.some.inj hvalue⟩
  · rintro ⟨hne, hdigit, hvalue⟩
    exact ⟨⟨hne, fun c hc => (isDigit_iff c).mpr (hdigit c hc)⟩, congrArg some hvalue⟩

theorem Numeral.head_ne {sign : Char} {cs : List Char} {n : Nat} (h : Numeral (sign :: cs) n) :
    sign ≠ '-' ∧ sign ≠ '+' := by
  have hdigit := h.digit sign List.mem_cons_self
  constructor
  · rintro rfl
    exact absurd hdigit (by decide)
  · rintro rfl
    exact absurd hdigit (by decide)

theorem map_readNat?_eq_some_iff {digits : List Char} {f : Int → Int} {m : Int} :
    Option.map f (do return (← readNat? digits : Int)) = some m ↔
      ∃ n : Nat, Numeral digits n ∧ f n = m := by
  simp only [Option.map_eq_some_iff, Option.bind_eq_bind, Option.bind_eq_some_iff,
    readNat?_eq_some_iff]
  constructor
  · rintro ⟨_, ⟨n, hn, hm⟩, rfl⟩
    exact ⟨n, hn, congrArg f (Option.some.inj hm)⟩
  · rintro ⟨n, hn, rfl⟩
    exact ⟨n, ⟨n, hn, rfl⟩, rfl⟩

theorem readInt?_eq_some_iff {cs : List Char} {n : Int} :
    readInt? cs = some n ↔ Decimal cs n := by
  -- a sign is no digit, so each form of a decimal belongs to one case
  fun_cases readInt? cs with
  | case1 digits =>
      rw [map_readNat?_eq_some_iff]
      constructor
      · rintro ⟨m, hm, rfl⟩
        exact .minus hm
      · intro h
        cases h with
        | unsigned h => exact absurd rfl h.head_ne.1
        | minus h => exact ⟨_, h, rfl⟩
  | case2 digits =>
      rw [map_readNat?_eq_some_iff]
      constructor
      · rintro ⟨m, hm, rfl⟩
        exact .plus hm
      · intro h
        cases h with
        | unsigned h => exact absurd rfl h.head_ne.2
        | plus h => exact ⟨_, h, rfl⟩
  | case3 digits hminus hplus =>
      rw [map_readNat?_eq_some_iff]
      constructor
      · rintro ⟨m, hm, rfl⟩
        exact .unsigned hm
      · intro h
        cases h with
        | unsigned h => exact ⟨_, h, rfl⟩
        | plus h => exact absurd rfl (hplus _)
        | minus h => exact absurd rfl (hminus _)

theorem readInt64?_eq_some_iff {cs : List Char} {v : Int64} :
    readInt64? cs = some v ↔ Decimal cs v.toInt := by
  rw [← readInt?_eq_some_iff]
  unfold readInt64?
  have hmin : Int64.minValue.toInt = -2 ^ 63 := rfl
  have hmax : Int64.maxValue.toInt = 2 ^ 63 - 1 := rfl
  cases readInt? cs with
  | none => exact iff_of_false nofun nofun
  | some n =>
      simp only [Option.ite_none_right_eq_some, Option.some.injEq]
      constructor
      · rintro ⟨⟨hlow, hhigh⟩, rfl⟩
        exact (Int64.toInt_ofInt_of_le (by omega) (by omega)).symm
      · rintro rfl
        exact ⟨⟨v.minValue_le_toInt, v.toInt_le⟩, Int64.ofInt_toInt v⟩

end Text

/-! ## Statements -/

/-- A trimmed line that is a statement, and what it does. -/
inductive Statement.Denotes : List Char → Statement → Prop where
  | returning {rest number : List Char} {v : Int64} (hnumber : Text.Trims rest number)
      (hv : Text.Decimal number v.toInt) : Denotes ("return ".toList ++ rest) (.returning v)
  | raising {rest message : List Char} (hmessage : Text.Trims rest message) :
      Denotes ("error ".toList ++ rest) (.raising (String.ofList message))

theorem Statement.read?_eq_some_iff {line : List Char} {s : Statement} :
    read? line = some s ↔ Denotes line s := by
  unfold read?
  constructor
  · intro h
    split at h
    · rename_i rest hrest
      obtain ⟨v, hv, rfl⟩ := Option.map_eq_some_iff.mp h
      obtain rfl := Text.dropStart?_eq_some hrest
      exact .returning (Text.trims_trim rest) (Text.readInt64?_eq_some_iff.mp hv)
    · split at h
      · rename_i rest hrest
        obtain rfl := Option.some.inj h
        obtain rfl := Text.dropStart?_eq_some hrest
        exact .raising (Text.trims_trim rest)
      · cases h
  · intro h
    cases h with
    | returning hnumber hv =>
        obtain rfl := Text.trims_iff.mp hnumber
        simp only [Text.dropStart?_append, Text.readInt64?_eq_some_iff.mpr hv, Option.map_some]
    | @raising rest message hmessage =>
        obtain rfl := Text.trims_iff.mp hmessage
        have hreturn : Text.dropStart? "return ".toList ("error ".toList ++ rest) = none := rfl
        simp only [hreturn, Text.dropStart?_append]

theorem Statement.Denotes.unique {line : List Char} {s s' : Statement} (h : Denotes line s)
    (h' : Denotes line s') : s' = s :=
  Option.some.inj ((read?_eq_some_iff.mpr h').symm.trans (read?_eq_some_iff.mpr h))

namespace Script

open Statement (Denotes)

/-- The lines of a text, trimmed and numbered from one. -/
def numberedLines (cs : List Char) : List (List Char × Nat) :=
  ((Text.lines cs).map Text.trim).zipIdx 1

/-- A trimmed line that is not blank and no comment. -/
def Significant (line : List Char) : Prop := line ≠ [] ∧ ¬ "--".toList <+: line

instance (line : List Char) : Decidable (Significant line) :=
  inferInstanceAs (Decidable (_ ∧ _))

/-- The significant lines of a script that is well-formed, with its value or the
message it fails with. -/
inductive Stands : List (List Char × Nat) → Option Int64 → Option String → Prop where
  | nothing : Stands [] none none
  | value {line : List Char} {number : Nat} {v : Int64} (h : Denotes line (.returning v)) :
      Stands [(line, number)] (some v) none
  | failure {line : List Char} {number : Nat} {message : String}
      (h : Denotes line (.raising message)) : Stands [(line, number)] none (some message)

def WellFormed (line : List Char) : Prop := ∃ s, Denotes line s

/-- A line after the lines `before` that is malformed or follows a well-formed
one. -/
def AtFault (before : List (List Char × Nat)) (line : List Char) : Prop :=
  ¬ WellFormed line ∨ ∃ earlier ∈ before, WellFormed earlier.1

/-- The first of some lines that is at fault. -/
def FirstAtFault (lines : List (List Char × Nat)) (line : List Char × Nat) : Prop :=
  ∃ i, lines[i]? = some line ∧ AtFault (lines.take i) line.1 ∧
    ∀ j < i, ∀ earlier ∈ lines[j]?, ¬ AtFault (lines.take j) earlier.1

theorem isSignificant_iff {line : List Char} : isSignificant line = true ↔ Significant line := by
  rw [isSignificant, Bool.and_eq_true, Bool.not_eq_true', List.isEmpty_eq_false_iff,
    Option.isNone_iff_eq_none, Text.dropStart?_eq_none_iff]
  rfl

theorem significantLines_eq (cs : List Char) :
    significantLines cs = (numberedLines cs).filter fun line => Significant line.1 := by
  have hfilter : (fun line : List Char × Nat => isSignificant line.1) =
      fun line => decide (Significant line.1) := by
    funext line
    rw [Bool.eq_iff_iff, isSignificant_iff, decide_eq_true_iff]
  rw [significantLines, hfilter]
  rcases Text.trimmed_lines cs with h | h
  · rw [h, numberedLines]
  · have hempty (number : Nat) : [([], number)].filter
        (fun line : List Char × Nat => Significant line.1) = [] := rfl
    rw [h, List.zipIdx_append, List.filter_append]
    exact (congrArg _ (hempty _)).trans (List.append_nil _)

/-! ## Which line is at fault -/

theorem FirstAtFault.eq {lines : List (List Char × Nat)} {line line' : List Char × Nat}
    (h : FirstAtFault lines line) (h' : FirstAtFault lines line') : line' = line := by
  obtain ⟨i, hline, hfault, hfirst⟩ := h
  obtain ⟨i', hline', hfault', hfirst'⟩ := h'
  rcases Nat.lt_trichotomy i i' with hlt | rfl | hlt
  · exact absurd hfault (hfirst' i hlt line hline)
  · exact Option.some.inj (hline'.symm.trans hline)
  · exact absurd hfault' (hfirst i' hlt line' hline')

theorem firstAtFault_of_malformed {first : List Char × Nat} (h : ¬ WellFormed first.1)
    (more : List (List Char × Nat)) : FirstAtFault (first :: more) first :=
  ⟨0, rfl, .inl h, nofun⟩

theorem firstAtFault_of_second {first : List Char × Nat} (h : WellFormed first.1)
    (second : List Char × Nat) (more : List (List Char × Nat)) :
    FirstAtFault (first :: second :: more) second := by
  refine ⟨1, rfl, .inr ⟨first, List.mem_singleton_self first, h⟩, fun j hj earlier hearlier => ?_⟩
  obtain rfl := Nat.lt_one_iff.mp hj
  obtain rfl := Option.some.inj hearlier
  rintro (hmalformed | ⟨_, hmem, -⟩)
  · exact hmalformed h
  · cases hmem

theorem not_firstAtFault_of_single {line : List Char × Nat} (h : WellFormed line.1)
    (line' : List Char × Nat) : ¬ FirstAtFault [line] line' := by
  rintro ⟨i, hline, hfault, -⟩
  cases i with
  | zero =>
      obtain rfl := Option.some.inj hline
      rcases hfault with hmalformed | ⟨_, hmem, -⟩
      · exact hmalformed h
      · cases hmem
  | succ i => cases hline

theorem Stands.not_firstAtFault {lines : List (List Char × Nat)} {value : Option Int64}
    {failure : Option String} (h : Stands lines value failure) (line : List Char × Nat) :
    ¬ FirstAtFault lines line := by
  cases h with
  | nothing => exact fun ⟨_, hline, _⟩ => nomatch hline
  | value h => exact not_firstAtFault_of_single ⟨_, h⟩ line
  | failure h => exact not_firstAtFault_of_single ⟨_, h⟩ line

theorem Stands.unique {lines : List (List Char × Nat)} {value value' : Option Int64}
    {failure failure' : Option String} (h : Stands lines value failure)
    (h' : Stands lines value' failure') : value' = value ∧ failure' = failure := by
  cases h with
  | nothing =>
      cases h'
      exact ⟨rfl, rfl⟩
  | value h =>
      cases h' with
      | value h' =>
          obtain rfl := Statement.returning.inj (h.unique h')
          exact ⟨rfl, rfl⟩
      | failure h' => exact nomatch h.unique h'
  | failure h =>
      cases h' with
      | value h' => exact nomatch h.unique h'
      | failure h' =>
          obtain rfl := Statement.raising.inj (h.unique h')
          exact ⟨rfl, rfl⟩

/-! ## What a script is compiled to -/

theorem wellFormed_iff {line : List Char} : WellFormed line ↔ Statement.read? line ≠ none := by
  rw [Option.ne_none_iff_exists']
  exact exists_congr fun s => Statement.read?_eq_some_iff.symm

theorem lines_of_compile {bytes : Bytes} {lines : List (List Char × Nat)}
    (hlines : significantLines (Utf8.decodeChars bytes) = lines) (name : String) :
    (∀ unit, compile bytes name = .ok unit →
      Stands lines unit.value unit.failure ∧ unit.chunk = name ∧ unit.text = bytes) ∧
    ∀ message, compile bytes name = .error message →
      ∃ line, FirstAtFault lines line ∧ message = complaint name line := by
  unfold compile statement?
  rw [hlines]
  cases lines with
  | nil =>
      refine ⟨fun unit h => ?_, nofun⟩
      obtain rfl := Except.ok.inj h
      exact ⟨.nothing, rfl, rfl⟩
  | cons first more =>
      cases hread : Statement.read? first.1 with
      | none =>
          have hmalformed : ¬ WellFormed first.1 := fun h => wellFormed_iff.mp h hread
          simp only [hread]
          refine ⟨nofun, fun message h => ?_⟩
          exact ⟨first, firstAtFault_of_malformed hmalformed more, (Except.error.inj h).symm⟩
      | some s =>
          have hs := Statement.read?_eq_some_iff.mp hread
          cases more with
          | nil =>
              simp only [hread]
              cases s with
              | returning v =>
                  refine ⟨fun unit h => ?_, nofun⟩
                  obtain rfl := Except.ok.inj h
                  exact ⟨.value hs, rfl, rfl⟩
              | raising message =>
                  refine ⟨fun unit h => ?_, nofun⟩
                  obtain rfl := Except.ok.inj h
                  exact ⟨.failure hs, rfl, rfl⟩
          | cons second more =>
              simp only [hread]
              refine ⟨nofun, fun message h => ?_⟩
              exact ⟨second, firstAtFault_of_second ⟨s, hs⟩ second more,
                (Except.error.inj h).symm⟩

/-- A script is compiled to what its lines stand for. -/
theorem compile_eq_ok_iff {bytes : Bytes} {lines : List (List Char × Nat)}
    (hlines : significantLines (Utf8.decodeChars bytes) = lines) {name : String}
    {unit : CompiledModule} :
    compile bytes name = .ok unit ↔
      Stands lines unit.value unit.failure ∧ unit.chunk = name ∧ unit.text = bytes := by
  obtain ⟨hok, herror⟩ := lines_of_compile hlines name
  refine ⟨hok unit, fun ⟨hstands, hchunk, htext⟩ => ?_⟩
  cases hcompile : compile bytes name with
  | error message =>
      obtain ⟨line, hfault, -⟩ := herror message hcompile
      exact absurd hfault (hstands.not_firstAtFault line)
  | ok found =>
      obtain ⟨hfound, hname, hbytes⟩ := hok found hcompile
      obtain ⟨hvalue, hfailure⟩ := hfound.unique hstands
      cases unit
      cases found
      simp only at hvalue hfailure hchunk htext hname hbytes
      rw [hvalue, hfailure, hchunk, htext, hname, hbytes]

/-- A script is rejected because of the first line that is at fault. -/
theorem compile_eq_error_iff {bytes : Bytes} {lines : List (List Char × Nat)}
    (hlines : significantLines (Utf8.decodeChars bytes) = lines) {name message : String} :
    compile bytes name = .error message ↔
      ∃ line, FirstAtFault lines line ∧ message = complaint name line := by
  obtain ⟨hok, herror⟩ := lines_of_compile hlines name
  refine ⟨herror message, fun ⟨line, hfault, hmessage⟩ => ?_⟩
  cases hcompile : compile bytes name with
  | ok unit => exact absurd hfault ((hok unit hcompile).1.not_firstAtFault line)
  | error found =>
      obtain ⟨line', hfault', hfound⟩ := herror found hcompile
      rw [hmessage, hfound, hfault.eq hfault']

/-! ## Line by line -/

/-- What the lines up to one have given. -/
structure Found where
  value : Option Int64 := none
  failure : Option String := none

/-- What a statement gives. -/
def Found.ofStatement : Statement → Found
  | .returning v => { value := some v }
  | .raising message => { failure := some message }

/-- One more line. -/
def Found.step (name : String) (found : Found) (line : List Char × Nat) : Except String Found :=
  if line.1 = [] ∨ "--".toList <+: line.1 then .ok found
  else if found.value.isSome ∨ found.failure.isSome then .error (complaint name line)
  else
    match Text.dropStart? "return ".toList line.1 with
    | some rest =>
      match Text.readInt64? (Text.trim rest) with
      | some v => .ok { found with value := some v }
      | none => .error (complaint name line)
    | none =>
      match Text.dropStart? "error ".toList line.1 with
      | some rest => .ok { found with failure := some (String.ofList (Text.trim rest)) }
      | none => .error (complaint name line)

/-- A script compiled line by line. -/
def compileByLine (bytes : Bytes) (name : String) : Except String CompiledModule := do
  let found ← (numberedLines (Utf8.decodeChars bytes)).foldlM (Found.step name) {}
  return ⟨found.value, found.failure, name, bytes⟩

theorem Found.step_of_not_significant {line : List Char × Nat} (h : ¬ Significant line.1)
    (name : String) (found : Found) : found.step name line = .ok found := by
  refine if_pos ?_
  rwa [Significant, not_and_or, not_not, not_not] at h

theorem Found.step_of_statement {line : List Char × Nat} (h : Significant line.1)
    (name : String) (s : Statement) :
    (Found.ofStatement s).step name line = .error (complaint name line) := by
  have hnot : ¬ (line.1 = [] ∨ "--".toList <+: line.1) := not_or.mpr h
  have hfound : (ofStatement s).value.isSome ∨ (ofStatement s).failure.isSome := by
    cases s with
    | returning v => exact .inl rfl
    | raising message => exact .inr rfl
  rw [step, if_neg hnot, if_pos hfound]

theorem Found.step_of_nothing {line : List Char × Nat} (h : Significant line.1) (name : String) :
    Found.step name {} line =
      match Statement.read? line.1 with
      | some s => .ok (ofStatement s)
      | none => .error (complaint name line) := by
  have hnot : ¬ (line.1 = [] ∨ "--".toList <+: line.1) := not_or.mpr h
  rw [step, if_neg hnot, if_neg (by decide), Statement.read?]
  cases hreturn : Text.dropStart? "return ".toList line.1 with
  | some rest =>
      cases hv : Text.readInt64? (Text.trim rest) with
      | some v => simp only [hv, Option.map_some, ofStatement]
      | none => simp only [hv, Option.map_none]
  | none =>
      cases herror : Text.dropStart? "error ".toList line.1 with
      | some rest => simp only [ofStatement]
      | none => rfl

theorem Found.foldlM_filter (name : String) (found : Found) (lines : List (List Char × Nat)) :
    (lines.filter fun line => Significant line.1).foldlM (step name) found =
      lines.foldlM (step name) found := by
  rw [List.foldlM_filter]
  congr 1
  funext found line
  split
  · rfl
  · rename_i hnot
    exact (step_of_not_significant (by simpa using hnot) name found).symm

/-- Going through the lines stops at the second significant one at the latest, so
the lines that are significant decide. -/
theorem compileByLine_eq (bytes : Bytes) (name : String) :
    compileByLine bytes name = compile bytes name := by
  have hlines := significantLines_eq (Utf8.decodeChars bytes)
  have hsignificant : ∀ line ∈ significantLines (Utf8.decodeChars bytes), Significant line.1 := by
    intro line hline
    rw [hlines] at hline
    exact of_decide_eq_true (List.mem_filter.mp hline).2
  unfold compileByLine compile statement?
  rw [← Found.foldlM_filter, ← hlines]
  generalize significantLines (Utf8.decodeChars bytes) = lines at hsignificant
  cases lines with
  | nil => rfl
  | cons first more =>
      rw [List.foldlM_cons, Found.step_of_nothing (hsignificant first List.mem_cons_self)]
      cases hread : Statement.read? first.1 with
      | none =>
          simp only [hread]
          rfl
      | some s =>
          cases more with
          | nil =>
              simp only [hread]
              cases s with
              | returning v => rfl
              | raising message => rfl
          | cons second more =>
              have hsecond := hsignificant second (List.mem_cons_of_mem _ List.mem_cons_self)
              simp only [hread, List.foldlM_cons, bind, Except.bind,
                Found.step_of_statement hsecond]

end Script

namespace Interpreter

open Script

/-- Bytes that do not begin like a compiled module are loaded, under a name or
none, just if their significant lines stand for a module, and as that module,
with the bytes for its text and never with an empty message.  They are rejected
just if there is a first line at fault, with a message that names the chunk, the
number of that line and the line.  Going through the lines one by one gives the
same. -/
theorem script_is_read_by_its_grammar {σ : Type} [Feed σ] (interpreter : Interpreter) {feed : σ}
    {bytes : Bytes} (hdrain : (Feed.drain feed).1 = bytes) (hhead : bytes.head? ≠ some 0x1B)
    (chunk : Option String) :
    let name := chunk.getD "?"
    let lines := (numberedLines (Utf8.decodeChars bytes)).filter fun line => Significant line.1
    let loaded := (interpreter.load feed chunk).1
    (∀ unit, loaded = .ok unit ↔
      Stands lines unit.value unit.failure ∧ unit.chunk = name ∧ unit.text = bytes) ∧
    (∀ unit, loaded = .ok unit → unit.failure ≠ some "") ∧
    (∀ message, loaded = .error message ↔
      ∃ line number, FirstAtFault lines (line, number) ∧
        message = s!"[string \"{name}\"]:{number}: unexpected symbol near '{String.ofList line}'") ∧
    loaded = compileByLine bytes name := by
  intro name lines loaded
  have hlines : significantLines (Utf8.decodeChars bytes) = lines := significantLines_eq _
  have hloaded : loaded = compile bytes name := by
    show (interpreter.load feed chunk).1 = _
    rw [load_eq, hdrain]
    exact if_neg hhead
  rw [hloaded]
  refine ⟨fun unit => compile_eq_ok_iff hlines, fun unit => failure_of_compile, fun message => ?_,
    (compileByLine_eq bytes name).symm⟩
  exact (compile_eq_error_iff hlines).trans Prod.exists

/-- A script that returns a number on its third line, and one whose second
statement is at fault although it is well formed and a later line is not. -/
theorem second_statement_is_at_fault :
    let bytes := [0x2D, 0x2D, 0xFF, 0x0D, 0x0A, 0x0A, 0x20, 0x72, 0x65, 0x74, 0x75, 0x72, 0x6E,
      0x20, 0x09, 0x2D, 0x37, 0x0D, 0x0A]
    let twice := [0x65, 0x72, 0x72, 0x6F, 0x72, 0x20, 0x61, 0x0D, 0x0A, 0x0A, 0x20, 0x65, 0x72,
      0x72, 0x6F, 0x72, 0x20, 0x62, 0x0A, 0x63]
    (load {} (Queue.mk [bytes]) none).1 = .ok ⟨some (-7), none, "?", bytes⟩ ∧
      (load {} (Queue.mk [twice]) (some "n")).1 =
        .error "[string \"n\"]:3: unexpected symbol near 'error b'" := by
  intro bytes twice
  obtain ⟨hok, -⟩ :=
    script_is_read_by_its_grammar {} (Queue.drain_singleton bytes) (by decide) none
  obtain ⟨-, -, herror, -⟩ :=
    script_is_read_by_its_grammar {} (Queue.drain_singleton twice) (by decide) (some "n")
  have hreturn : Statement.Denotes "return \t-7".toList (.returning (-7)) :=
    Statement.read?_eq_some_iff.mp (by decide)
  have hraise : Statement.Denotes "error a".toList (.raising "a") :=
    Statement.read?_eq_some_iff.mp (by decide)
  have hlines : (numberedLines (Utf8.decodeChars bytes)).filter (fun line => Significant line.1) =
      [("return \t-7".toList, 3)] := by decide
  have htwice : (numberedLines (Utf8.decodeChars twice)).filter (fun line => Significant line.1) =
      [("error a".toList, 1), ("error b".toList, 3), (['c'], 4)] := by decide
  refine ⟨(hok _).mpr ⟨?_, rfl, rfl⟩, (herror _).mpr ⟨"error b".toList, 3, ?_, by decide⟩⟩
  · rw [hlines]
    exact .value hreturn
  · rw [htwice]
    exact firstAtFault_of_second ⟨_, hraise⟩ _ _

end Interpreter

end SealedModules
