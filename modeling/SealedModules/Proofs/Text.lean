/-
# Splitting and trimming

What the readers of scripts and paths rely on: a text is split into at least
one piece, the last of which is empty only if the text ends in a separator,
and what is left of a trimmed text does not end in a blank.  A first
character that is neither a separator nor a blank stays the first one, of the
first piece and of what is trimmed.  Trimming takes off the blanks at the two
ends and nothing else (`trims_iff`).  Pieces without a separator are got back
from the text they are joined to (`split_join`).
-/
import Mathlib.Data.List.Basic
import Mathlib.Data.List.TakeWhile
import SealedModules.Text.Blank
import SealedModules.Text.Split

namespace SealedModules.Text

/-! ## Splitting -/

theorem split_ne_nil (sep : Char) (cs : List Char) : split sep cs ≠ [] := by
  fun_cases split sep cs <;> exact List.cons_ne_nil _ _

theorem exists_split_cons {sep c : Char} (h : c ≠ sep) (cs : List Char) :
    ∃ piece pieces, split sep (c :: cs) = (c :: piece) :: pieces := by
  rw [split, if_neg h]
  cases hrest : split sep cs with
  | nil => exact absurd hrest (split_ne_nil sep cs)
  | cons piece pieces => exact ⟨piece, pieces, rfl⟩

/-- The last piece of a text is empty only if the text is, or ends in a
separator. -/
theorem getLast?_split {sep : Char} {cs : List Char} (hcs : cs ≠ [])
    (hsep : cs.getLast? ≠ some sep) : (split sep cs).getLast? ≠ some [] := by
  induction cs with
  | nil => exact absurd rfl hcs
  | cons c cs ih =>
      unfold split
      cases hrest : cs with
      | nil =>
          subst hrest
          have hc : c ≠ sep := fun heq => hsep (congrArg some heq)
          rw [if_neg hc]
          exact nofun
      | cons d ds =>
          rw [← hrest]
          have hne : cs ≠ [] := hrest ▸ List.cons_ne_nil d ds
          have hlast := ih hne (by rwa [List.getLast?_cons_of_ne_nil hne] at hsep)
          have hpieces := split_ne_nil sep cs
          split
          · rwa [List.getLast?_cons_of_ne_nil hpieces]
          · split
            · rename_i hnil
              exact absurd hnil hpieces
            · rename_i piece pieces hsplit
              rw [hsplit] at hlast
              cases pieces with
              | nil => exact nofun
              | cons next pieces => exact hlast

theorem split_append (sep : Char) (cs rest : List Char) :
    split sep (cs ++ sep :: rest) = split sep cs ++ split sep rest := by
  induction cs with
  | nil => exact if_pos rfl
  | cons c cs ih =>
      rw [List.cons_append, split, split, ih]
      split
      · rfl
      · cases hpieces : split sep cs with
        | nil => exact absurd hpieces (split_ne_nil sep cs)
        | cons piece pieces => rfl

theorem split_of_not_mem {sep : Char} {cs : List Char} (h : sep ∉ cs) : split sep cs = [cs] := by
  induction cs with
  | nil => rfl
  | cons c cs ih =>
      have hc : ¬ c = sep := fun heq => List.ne_of_not_mem_cons h heq.symm
      rw [split, if_neg hc, ih (List.not_mem_of_not_mem_cons h)]

theorem not_mem_of_mem_split {sep : Char} {cs piece : List Char} (h : piece ∈ split sep cs) :
    sep ∉ piece := by
  induction cs generalizing piece with
  | nil =>
      obtain rfl := List.mem_singleton.mp h
      exact List.not_mem_nil
  | cons c cs ih =>
      rw [split] at h
      split at h
      · rcases List.mem_cons.mp h with rfl | h
        · exact List.not_mem_nil
        · exact ih h
      · rename_i hc
        cases hpieces : split sep cs with
        | nil => exact absurd hpieces (split_ne_nil sep cs)
        | cons first pieces =>
            rw [hpieces] at h ih
            rcases List.mem_cons.mp h with rfl | h
            · exact List.not_mem_cons_of_ne_of_not_mem (Ne.symm hc) (ih List.mem_cons_self)
            · exact ih (List.mem_cons_of_mem first h)

theorem join_cons (sep : Char) (piece : List Char) {pieces : List (List Char)}
    (hne : pieces ≠ []) : join sep (piece :: pieces) = piece ++ sep :: join sep pieces := by
  cases pieces with
  | nil => exact absurd rfl hne
  | cons next pieces => rfl

theorem split_join {sep : Char} {pieces : List (List Char)} (hne : pieces ≠ [])
    (h : ∀ piece ∈ pieces, sep ∉ piece) : split sep (join sep pieces) = pieces := by
  induction pieces with
  | nil => exact absurd rfl hne
  | cons piece pieces ih =>
      have hpiece := split_of_not_mem (h piece List.mem_cons_self)
      cases pieces with
      | nil => exact hpiece
      | cons next pieces =>
          have hrest := ih (List.cons_ne_nil next pieces) fun other hmem =>
            h other (List.mem_cons_of_mem piece hmem)
          rw [join_cons sep piece (List.cons_ne_nil next pieces), split_append, hpiece, hrest,
            List.singleton_append]

/-- Turning separators into others is cutting at the ones and joining by the
others. -/
theorem join_split (old new : Char) (cs : List Char) :
    join new (split old cs) = replace old new cs := by
  induction cs with
  | nil => rfl
  | cons c cs ih =>
      obtain ⟨piece, pieces, hpieces⟩ := List.exists_cons_of_ne_nil (split_ne_nil old cs)
      rw [hpieces] at ih
      rw [split, hpieces, replace, List.map_cons]
      by_cases hc : c = old
      · rw [if_pos hc, if_pos hc, join_cons new [] (List.cons_ne_nil piece pieces), ih]
        rfl
      · rw [if_neg hc, if_neg hc]
        have hjoin : join new ((c :: piece) :: pieces) = c :: join new (piece :: pieces) := by
          cases pieces with
          | nil => rfl
          | cons next pieces => rfl
        rw [hjoin, ih]
        rfl

theorem join_split_self (sep : Char) (cs : List Char) : join sep (split sep cs) = cs := by
  rw [join_split, replace]
  exact List.map_id'' (fun c => by rw [ite_eq_right_iff]; exact Eq.symm) cs

theorem join_prefix_append (sep : Char) {pieces : List (List Char)} (hne : pieces ≠ [])
    (more : List (List Char)) : join sep pieces <+: join sep (pieces ++ more) := by
  induction pieces with
  | nil => exact absurd rfl hne
  | cons piece pieces ih =>
      by_cases hpieces : pieces = []
      · subst hpieces
        cases more with
        | nil => exact List.prefix_refl _
        | cons next more => exact List.prefix_append _ _
      · have hmore : pieces ++ more ≠ [] := fun hnil => hpieces (List.append_eq_nil_iff.mp hnil).1
        rw [List.cons_append, join_cons sep piece hpieces, join_cons sep piece hmore]
        exact (List.prefix_append_right_inj piece).mpr
          ((List.prefix_cons_inj sep).mpr (ih hpieces))

theorem join_concat (sep : Char) (pieces : List (List Char)) (last ending : List Char) :
    join sep (pieces ++ [last ++ ending]) = join sep (pieces ++ [last]) ++ ending := by
  induction pieces with
  | nil => rfl
  | cons piece pieces ih =>
      rw [List.cons_append, join_cons sep piece (by simp), ih, List.cons_append,
        join_cons sep piece (by simp), List.append_assoc, List.cons_append]

theorem split_append_of_not_mem {sep : Char} {cs ending last : List Char} {front : List (List Char)}
    (hsplit : split sep cs = front ++ [last]) (hending : sep ∉ ending) :
    split sep (cs ++ ending) = front ++ [last ++ ending] := by
  have hpieces : ∀ piece ∈ front ++ [last], sep ∉ piece := by
    rw [← hsplit]
    exact fun piece hmem => not_mem_of_mem_split hmem
  obtain ⟨hfront, hlast⟩ := List.forall_mem_append.mp hpieces
  have hlast : sep ∉ last ++ ending := by
    rw [List.mem_append]
    exact not_or_intro (hlast last List.mem_cons_self) hending
  rw [← join_split_self sep cs, hsplit, ← join_concat]
  refine split_join (List.append_ne_nil_of_right_ne_nil front (List.cons_ne_nil _ [])) ?_
  exact List.forall_mem_append.mpr ⟨hfront, List.forall_mem_singleton.mpr hlast⟩

theorem mem_join_of_mem {sep c : Char} {piece : List Char} {pieces : List (List Char)}
    (hpiece : piece ∈ pieces) (h : c ∈ piece) : c ∈ join sep pieces := by
  fun_induction join sep pieces with
  | case1 => exact absurd hpiece List.not_mem_nil
  | case2 only =>
      obtain rfl := List.mem_singleton.mp hpiece
      exact h
  | case3 first pieces hne ih =>
      rcases List.mem_cons.mp hpiece with rfl | hpiece
      · exact List.mem_append_left _ h
      · exact List.mem_append_right first (List.mem_cons_of_mem sep (ih hpiece))

theorem mem_of_mem_split {sep c : Char} {cs piece : List Char} (hpiece : piece ∈ split sep cs)
    (h : c ∈ piece) : c ∈ cs := by
  rw [← join_split_self sep cs]
  exact mem_join_of_mem hpiece h

theorem hasDoubleDot_iff {cs : List Char} : hasDoubleDot cs = true ↔ ['.', '.'] <:+: cs := by
  fun_induction hasDoubleDot cs with
  | case1 rest => exact iff_of_true rfl ⟨[], rest, rfl⟩
  | case2 c cs hc ih =>
      have hnot : ¬ ['.', '.'] <+: c :: cs := by
        rintro ⟨rest, heq⟩
        obtain ⟨rfl, rfl⟩ := List.cons.inj heq
        exact hc rest rfl rfl
      rw [ih, List.infix_cons_iff, or_iff_right hnot]
  | case3 => exact iff_of_false Bool.false_ne_true fun h => by cases List.eq_nil_of_infix_nil h

/-- Between two dots side by side there is an empty piece. -/
theorem nil_mem_split_of_hasDoubleDot {cs : List Char} (h : hasDoubleDot cs = true) :
    [] ∈ split '.' cs := by
  obtain ⟨front, rest, rfl⟩ := hasDoubleDot_iff.mp h
  rw [List.append_assoc]
  show [] ∈ split '.' (front ++ '.' :: '.' :: rest)
  rw [split_append, split, if_pos rfl]
  exact List.mem_append_right _ List.mem_cons_self

theorem mem_join {sep c : Char} {pieces : List (List Char)} (h : c ∈ join sep pieces) :
    c = sep ∨ ∃ piece ∈ pieces, c ∈ piece := by
  fun_induction join sep pieces with
  | case1 => exact absurd h List.not_mem_nil
  | case2 piece => exact .inr ⟨piece, List.mem_cons_self, h⟩
  | case3 piece pieces hne ih =>
      rcases List.mem_append.mp h with h | h
      · exact .inr ⟨piece, List.mem_cons_self, h⟩
      · rcases List.mem_cons.mp h with h | h
        · exact .inl h
        · obtain h | ⟨other, hmem, h⟩ := ih h
          · exact .inl h
          · exact .inr ⟨other, List.mem_cons_of_mem piece hmem, h⟩

theorem dropStart?_eq_some {start cs rest : List Char} (h : dropStart? start cs = some rest) :
    cs = start ++ rest := by
  fun_induction dropStart? start cs with
  | case1 cs => exact Option.some.inj h
  | case2 => cases h
  | case3 s start cs ih =>
      rw [ih h]
      rfl
  | case4 => cases h

theorem dropStart?_append (start rest : List Char) :
    dropStart? start (start ++ rest) = some rest := by
  induction start with
  | nil => cases rest <;> rfl
  | cons c start ih => exact (if_pos rfl).trans ih

theorem dropStart?_eq_none_iff {start cs : List Char} :
    dropStart? start cs = none ↔ ¬ start <+: cs := by
  constructor
  · rintro h ⟨rest, rfl⟩
    rw [dropStart?_append] at h
    cases h
  · intro h
    by_contra hsome
    obtain ⟨rest, hrest⟩ := Option.ne_none_iff_exists'.mp hsome
    exact h ⟨rest, (dropStart?_eq_some hrest).symm⟩

theorem dropEnd?_append (rest ending : List Char) :
    dropEnd? ending (rest ++ ending) = some rest := by
  rw [dropEnd?, List.reverse_append, dropStart?_append, Option.map_some, List.reverse_reverse]

theorem dropEnd?_eq_some {ending cs rest : List Char} (h : dropEnd? ending cs = some rest) :
    cs = rest ++ ending := by
  obtain ⟨back, hback, rfl⟩ := Option.map_eq_some_iff.mp h
  rw [← List.reverse_reverse cs, dropStart?_eq_some hback, List.reverse_append,
    List.reverse_reverse]

/-! ## Trimming -/

theorem exists_trim_cons {c : Char} (h : isBlank c = false) (cs : List Char) :
    ∃ more, trim (c :: cs) = c :: more := by
  have hkept : ¬ isBlank c = true := Bool.eq_false_iff.mp h
  have hstart : trimLeft (c :: cs) = c :: cs := List.dropWhile_cons_of_neg hkept
  have hlast : [c].dropWhile isBlank = [c] := List.dropWhile_cons_of_neg hkept
  rw [trim, hstart, List.reverse_cons, trimLeft, List.dropWhile_append, hlast]
  split
  · exact ⟨[], rfl⟩
  · exact ⟨_, List.reverse_append⟩

theorem isBlank_getLast_trim {cs : List Char} (h : trim cs ≠ []) :
    isBlank ((trim cs).getLast h) = false := by
  simp only [trim, List.getLast_reverse]
  exact List.head_dropWhile_not isBlank _

theorem isBlank_of_trim_eq_nil {cs : List Char} (h : trim cs = []) :
    ∀ c ∈ cs, isBlank c = true := by
  have hback : trimLeft (trimLeft cs).reverse = [] := List.reverse_eq_nil_iff.mp h
  have hblank : ∀ c ∈ trimLeft cs, isBlank c = true := by
    intro c hc
    exact List.dropWhile_eq_nil_iff.mp hback c (List.mem_reverse.mpr hc)
  -- what is left at the start is not a blank, so nothing is left
  have hstart : trimLeft cs = [] := by
    by_contra hne
    have hhead : isBlank ((trimLeft cs).head hne) = false := List.head_dropWhile_not isBlank hne
    rw [hblank _ (List.head_mem hne)] at hhead
    cases hhead
  exact List.dropWhile_eq_nil_iff.mp hstart

/-- A text that neither begins nor ends in a blank. -/
structure IsTrimmed (cs : List Char) : Prop where
  head : ∀ c ∈ cs.head?, isBlank c = false
  last : ∀ c ∈ cs.getLast?, isBlank c = false

/-- `core` is what `cs` is without the blanks at its two ends. -/
def Trims (cs core : List Char) : Prop :=
  ∃ front back, cs = front ++ (core ++ back) ∧ (∀ c ∈ front, isBlank c = true) ∧
    (∀ c ∈ back, isBlank c = true) ∧ IsTrimmed core

theorem trimLeft_of_head {cs : List Char} (h : ∀ c ∈ cs.head?, isBlank c = false) :
    trimLeft cs = cs := by
  cases cs with
  | nil => rfl
  | cons c cs => exact List.dropWhile_cons_of_neg (Bool.eq_false_iff.mp (h c rfl))

theorem trimLeft_append {front : List Char} (h : ∀ c ∈ front, isBlank c = true)
    (cs : List Char) : trimLeft (front ++ cs) = trimLeft cs :=
  List.dropWhile_append_of_pos h

theorem head_trimLeft {cs : List Char} : ∀ c ∈ (trimLeft cs).head?, isBlank c = false := by
  intro c hc
  have hne : trimLeft cs ≠ [] := List.ne_nil_of_mem (List.mem_of_mem_head? hc)
  rw [List.head?_eq_some_head hne] at hc
  obtain rfl := Option.some.inj hc
  exact List.head_dropWhile_not isBlank hne

theorem trims_trim (cs : List Char) : Trims cs (trim cs) := by
  have hfront : cs.takeWhile isBlank ++ trimLeft cs = cs := List.takeWhile_append_dropWhile
  have hback : trimLeft cs = trim cs ++ ((trimLeft cs).reverse.takeWhile isBlank).reverse := by
    rw [trim, ← List.reverse_append, trimLeft, trimLeft, List.takeWhile_append_dropWhile,
      List.reverse_reverse]
  refine ⟨_, _, (hback ▸ hfront).symm, fun c => List.mem_takeWhile_imp, ?_, ?_, ?_⟩
  · intro c hc
    exact List.mem_takeWhile_imp (List.mem_reverse.mp hc)
  · intro c hc
    have hhead : c ∈ (trimLeft cs).head? := by
      rw [hback]
      exact List.mem_head?_append_of_mem_head? hc
    exact head_trimLeft c hhead
  · intro c hc
    rw [trim, List.getLast?_reverse] at hc
    exact head_trimLeft c hc

/-- There is one way of taking blanks off. -/
theorem trims_iff {cs core : List Char} : Trims cs core ↔ core = trim cs := by
  constructor
  · rintro ⟨front, back, rfl, hfront, hback, hcore⟩
    rw [trim, trimLeft_append hfront]
    by_cases hnil : core = []
    · subst hnil
      have hnone : trimLeft back = [] := List.dropWhile_eq_nil_iff.mpr hback
      rw [List.nil_append, hnone]
      rfl
    · have hhead : ∀ c ∈ (core ++ back).head?, isBlank c = false := by
        rw [List.head?_append_of_ne_nil core hnil]
        exact hcore.head
      have hlast : ∀ c ∈ core.reverse.head?, isBlank c = false := by
        rw [List.head?_reverse]
        exact hcore.last
      have hback : ∀ c ∈ back.reverse, isBlank c = true := fun c hc =>
        hback c (List.mem_reverse.mp hc)
      rw [trimLeft_of_head hhead, List.reverse_append, trimLeft_append hback,
        trimLeft_of_head hlast, List.reverse_reverse]
  · rintro rfl
    exact trims_trim cs

end SealedModules.Text
