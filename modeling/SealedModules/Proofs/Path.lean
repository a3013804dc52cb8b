/-
# Names put after a path

Names joined by slashes are told apart again at those (`segments_ofNames`),
provided that each of them is a name: not empty, not one or two dots, and
without a slash.  Put after a path they stand behind its segments
(`segments_append`); only the empty segment after a slash at the end of the
path makes room for the first of them.  It does not matter whether names are
put there one by one or together (`descend_eq_append`).
-/
import Mathlib.Data.List.Basic
import SealedModules.Proofs.Files

namespace SealedModules.Path

/-- A text that names an entry of a directory. -/
structure IsName (name : String) : Prop where
  proper : Disk.IsProper name
  no_slash : '/' ∉ name.toList

instance (name : String) : Decidable (IsName name) :=
  decidable_of_iff (Disk.IsProper name ∧ '/' ∉ name.toList)
    ⟨fun h => ⟨h.1, h.2⟩, fun h => ⟨h.proper, h.no_slash⟩⟩

/-- A name without the other kind of slash, as it is kept in the path of an
asset. -/
structure IsPiece (name : String) : Prop where
  isName : IsName name
  no_backslash : '\\' ∉ name.toList

instance (name : String) : Decidable (IsPiece name) :=
  decidable_of_iff (IsName name ∧ '\\' ∉ name.toList)
    ⟨fun h => ⟨h.1, h.2⟩, fun h => ⟨h.isName, h.no_backslash⟩⟩

theorem not_slash_of_mem_segments {path segment : String} (h : segment ∈ segments path) :
    '/' ∉ segment.toList := by
  obtain ⟨piece, hpiece, rfl⟩ := List.mem_map.mp h
  rw [String.toList_ofList]
  exact Text.not_mem_of_mem_split hpiece

theorem segments_ne_nil (path : String) : segments path ≠ [] := by
  unfold segments
  exact fun h => Text.split_ne_nil _ _ (List.map_eq_nil_iff.mp h)

theorem isSilent_iff {segment : String} :
    isSilent segment = true ↔ segment = "" ∨ segment = "." := by
  rw [isSilent, Bool.or_eq_true, decide_eq_true_iff, decide_eq_true_iff]

/-! ## Names alone -/

theorem segments_ofNames_of_not_mem {names : List String} (hne : names ≠ [])
    (h : ∀ name ∈ names, '/' ∉ name.toList) : segments (ofNames names) = names := by
  have hpieces : ∀ piece ∈ names.map String.toList, '/' ∉ piece := List.forall_mem_map.mpr h
  rw [segments, ofNames, String.toList_ofList,
    Text.split_join (fun hnil => hne (List.map_eq_nil_iff.mp hnil)) hpieces, List.map_map]
  exact List.map_id'' (fun name => String.ofList_toList) names

theorem segments_ofNames {names : List String} (hne : names ≠ [])
    (h : ∀ name ∈ names, IsName name) : segments (ofNames names) = names :=
  segments_ofNames_of_not_mem hne fun name hmem => (h name hmem).no_slash

theorem segments_of_isName {name : String} (h : IsName name) : segments name = [name] := by
  have hself : ofNames [name] = name := String.ofList_toList
  rw [← hself, segments_ofNames (List.cons_ne_nil _ _) (List.forall_mem_singleton.mpr h), hself]

/-- A path is its segments with slashes between them. -/
theorem ofNames_segments (path : String) : ofNames (segments path) = path := by
  have hpieces : (segments path).map String.toList = Text.split '/' path.toList := by
    rw [segments, List.map_map]
    exact List.map_id'' (fun piece => String.toList_ofList) _
  rw [ofNames, hpieces, Text.join_split_self, String.ofList_toList]

theorem isAbsolute_iff_head? (path : String) :
    isAbsolute path = true ↔ (segments path).head? = some "" ∧ path ≠ "" := by
  unfold isAbsolute segments
  rw [decide_eq_true_iff]
  constructor
  · intro h
    cases hpath : path.toList with
    | nil =>
        rw [hpath] at h
        cases h
    | cons c cs =>
        rw [hpath] at h
        obtain rfl := Option.some.inj h
        rw [Text.split, if_pos rfl]
        refine ⟨rfl, fun hempty => ?_⟩
        rw [hempty] at hpath
        cases hpath
  · rintro ⟨hhead, hne⟩
    cases hpath : path.toList with
    | nil => exact absurd (String.toList_eq_nil_iff.mp hpath) hne
    | cons c cs =>
        rw [hpath] at hhead
        by_cases hc : c = '/'
        · rw [hc]
          rfl
        · obtain ⟨piece, pieces, hsplit⟩ := Text.exists_split_cons hc cs
          rw [hsplit] at hhead
          have hpiece := String.ofList_eq_empty_iff.mp (Option.some.inj hhead)
          cases hpiece

theorem not_isAbsolute_ofNames {names : List String} (h : ∀ name ∈ names, IsName name) :
    isAbsolute (ofNames names) = false := by
  refine Bool.eq_false_iff.mpr fun habsolute => ?_
  obtain ⟨hhead, hne⟩ := (isAbsolute_iff_head? _).mp habsolute
  cases names with
  | nil => exact hne rfl
  | cons name names =>
      rw [segments_ofNames (List.cons_ne_nil name names) h] at hhead
      exact (h name List.mem_cons_self).proper.1 (Option.some.inj hhead)

theorem components_ofNames {names : List String} (hne : names ≠ [])
    (h : ∀ name ∈ names, IsName name) : components (ofNames names) = names.map .name := by
  have hsegment : ∀ name ∈ names, Component.ofSegment? name = some (.name name) := by
    intro name hmem
    obtain ⟨hempty, hdot, hdots⟩ := (h name hmem).proper
    rw [Component.ofSegment?, if_neg (not_or_intro hempty hdot), if_neg hdots]
  have hhead : names.head? ≠ some "." := by
    intro hhead
    exact (h "." (List.mem_of_head? hhead)).proper.2.1 rfl
  rw [components, not_isAbsolute_ofNames h, segments_ofNames hne h]
  simp only [Bool.false_eq_true, if_false, if_neg hhead]
  exact List.filterMap_eq_map_iff_forall_eq_some.mpr hsegment

theorem ofNames_cons (name : String) {names : List String} (hne : names ≠ []) :
    ofNames (name :: names) = name ++ ("/" ++ ofNames names) := by
  have hpieces : names.map String.toList ≠ [] := fun hnil => hne (List.map_eq_nil_iff.mp hnil)
  refine String.toList_injective ?_
  simp only [ofNames, String.toList_ofList, String.toList_append, List.map_cons,
    Text.join_cons '/' _ hpieces]
  rfl

theorem not_mem_ofNames {c : Char} (hslash : c ≠ '/') {names : List String}
    (h : ∀ name ∈ names, c ∉ name.toList) : c ∉ (ofNames names).toList := by
  intro hmem
  rw [ofNames, String.toList_ofList] at hmem
  rcases Text.mem_join hmem with heq | ⟨piece, hpiece, hmem⟩
  · exact hslash heq
  · obtain ⟨name, hname, rfl⟩ := List.mem_map.mp hpiece
    exact h name hname hmem

theorem no_backslash_ofNames {names : List String} (h : ∀ name ∈ names, IsPiece name) :
    '\\' ∉ (ofNames names).toList :=
  not_mem_ofNames (by decide) fun name hmem => (h name hmem).no_backslash

theorem ofNames_inj {names names' : List String} (hne : names ≠ []) (hne' : names' ≠ [])
    (h : ∀ name ∈ names, IsName name) (h' : ∀ name ∈ names', IsName name) :
    ofNames names = ofNames names' ↔ names = names' := by
  constructor
  · intro heq
    rw [← segments_ofNames hne h, heq, segments_ofNames hne' h']
  · exact congrArg ofNames

/-! ## A path after another -/

/-- The segments that stand before those of a path put after this one. -/
def stem (base : String) : List String :=
  if base = "" then []
  else if base.toList.getLast? = some '/' then (segments base).dropLast
  else segments base

theorem exists_segments_of_slash {path : String} (h : path.toList.getLast? = some '/') :
    ∃ front, front ≠ [] ∧ segments path = front ++ [""] := by
  obtain ⟨front, hfront⟩ := List.getLast?_eq_some_iff.mp h
  refine ⟨(Text.split '/' front).map String.ofList, ?_, ?_⟩
  · exact fun hnil => Text.split_ne_nil _ _ (List.map_eq_nil_iff.mp hnil)
  · rw [segments, hfront, Text.split_append, List.map_append]
    rfl

/-- Behind the stem of a path there are at most empty segments. -/
theorem exists_segments_eq_stem (base : String) :
    ∃ blanks, segments base = stem base ++ blanks ∧ ∀ segment ∈ blanks, segment = "" := by
  unfold stem
  split
  · rename_i hbase
    subst hbase
    exact ⟨[""], rfl, by simp⟩
  · split
    · rename_i hslash
      obtain ⟨front, -, hsegments⟩ := exists_segments_of_slash hslash
      rw [hsegments, List.dropLast_concat]
      exact ⟨[""], rfl, by simp⟩
    · exact ⟨[], (List.append_nil _).symm, by simp⟩

theorem segments_append {base child : String} (h : isAbsolute child = false) :
    segments (append base child) = stem base ++ segments child := by
  unfold append stem
  by_cases hbase : base = ""
  · rw [if_pos (.inr hbase), if_pos hbase, List.nil_append]
  · have hnot : ¬ (isAbsolute child = true ∨ base = "") := by
      rw [h]
      exact not_or_intro Bool.false_ne_true hbase
    rw [if_neg hnot, if_neg hbase]
    split
    · rename_i hslash
      obtain ⟨front, hfront⟩ := List.getLast?_eq_some_iff.mp hslash
      simp only [segments, String.toList_append, hfront, List.append_assoc, List.singleton_append,
        Text.split_append, List.map_append]
      rw [Text.split, List.map_singleton, List.dropLast_concat]
    · simp only [segments, String.toList_append, List.append_assoc]
      exact (congrArg _ (Text.split_append '/' base.toList child.toList)).trans List.map_append

theorem isAbsolute_append {base child : String} (h : isAbsolute child = false) :
    isAbsolute (append base child) = isAbsolute base := by
  unfold append
  by_cases hbase : base = ""
  · rw [if_pos (.inr hbase), h, hbase]
    rfl
  · have hnot : ¬ (isAbsolute child = true ∨ base = "") := by
      rw [h]
      exact not_or_intro Bool.false_ne_true hbase
    have hhead (rest : List Char) : (base.toList ++ rest).head? = base.toList.head? := by
      cases hpath : base.toList with
      | nil => exact absurd (String.toList_eq_nil_iff.mp hpath) hbase
      | cons c cs => rfl
    rw [if_neg hnot]
    split
    · rw [isAbsolute, String.toList_append, hhead, isAbsolute]
    · rw [isAbsolute, String.toList_append, String.toList_append, List.append_assoc, hhead,
        isAbsolute]

theorem stem_ne_nil {base : String} (h : base ≠ "") : stem base ≠ [] := by
  rw [stem, if_neg h]
  split
  · rename_i hslash
    obtain ⟨front, hfront, hsegments⟩ := exists_segments_of_slash hslash
    rwa [hsegments, List.dropLast_concat]
  · exact segments_ne_nil base

/-- A path put after another says what it says alone, unless it starts with a
dot that says something only there. -/
theorem components_append {base child : String} (habsolute : isAbsolute child = false)
    (hhere : (segments child).head? ≠ some ".") :
    components (append base child) =
      components base ++ (segments child).filterMap Component.ofSegment? := by
  obtain ⟨blanks, hsegments, hblanks⟩ := exists_segments_eq_stem base
  have hsilent : blanks.filterMap Component.ofSegment? = [] := by
    rw [List.filterMap_eq_nil_iff]
    intro segment hmem
    rw [hblanks segment hmem]
    rfl
  have hsaid : (segments base).filterMap Component.ofSegment? =
      (stem base).filterMap Component.ofSegment? := by
    rw [hsegments, List.filterMap_append, hsilent, List.append_nil]
  have hstart : (stem base ++ segments child).head? = some "." ↔
      (segments base).head? = some "." := by
    by_cases hbase : base = ""
    · subst hbase
      exact iff_of_false hhere (by decide)
    · have hstem := stem_ne_nil hbase
      rw [hsegments, List.head?_append_of_ne_nil _ hstem, List.head?_append_of_ne_nil _ hstem]
  simp only [components, isAbsolute_append habsolute, segments_append habsolute,
    List.filterMap_append, hsaid, hstart]
  split
  · rfl
  · split
    · rfl
    · rfl

/-- What a path is put after. -/
def lead (base : String) : String :=
  if base = "" then "" else if base.toList.getLast? = some '/' then base else base ++ "/"

theorem append_eq_lead {base child : String} (h : isAbsolute child = false) :
    append base child = lead base ++ child := by
  unfold append lead
  rw [h]
  split
  · rename_i hbase
    rw [if_pos (hbase.resolve_left Bool.false_ne_true), String.empty_append]
  · rename_i hbase
    rw [if_neg fun hempty => hbase (.inr hempty)]
    split
    · rfl
    · rfl

theorem not_mem_append {c : Char} (hslash : c ≠ '/') {base child : String}
    (hrelative : isAbsolute child = false) (hbase : c ∉ base.toList) (hchild : c ∉ child.toList) :
    c ∉ (append base child).toList := by
  have hlead : c ∉ (lead base).toList := by
    unfold lead
    split
    · exact List.not_mem_nil
    · split
      · exact hbase
      · rw [String.toList_append, List.mem_append]
        exact not_or_intro hbase fun hmem => hslash (List.mem_singleton.mp hmem)
  rw [append_eq_lead hrelative, String.toList_append, List.mem_append]
  exact not_or_intro hlead hchild

theorem not_isAbsolute_of_isName {name : String} (h : IsName name) : isAbsolute name = false := by
  refine decide_eq_false fun hhead => ?_
  exact h.no_slash (List.mem_of_head? hhead)

theorem lead_append {name : String} (h : IsName name) (base : String) :
    lead (append base name) = append base name ++ "/" := by
  rw [append_eq_lead (not_isAbsolute_of_isName h)]
  obtain ⟨front, last, hlast⟩ := (List.eq_nil_or_concat' name.toList).resolve_left fun hnil =>
    h.proper.1 (String.toList_eq_nil_iff.mp hnil)
  have hslash : last ≠ '/' := by
    rintro rfl
    exact h.no_slash (by rw [hlast]; simp)
  have hlist : (lead base ++ name).toList = (lead base).toList ++ front ++ [last] := by
    rw [String.toList_append, hlast, List.append_assoc]
  have hne : lead base ++ name ≠ "" := by
    intro hempty
    rw [hempty] at hlist
    simp at hlist
  rw [lead, if_neg hne, hlist, List.getLast?_concat, if_neg (by simpa using hslash)]

theorem utf8ByteSize_add_le_append {base child : String} (h : isAbsolute child = false) :
    base.utf8ByteSize + child.utf8ByteSize ≤ (append base child).utf8ByteSize := by
  rw [append_eq_lead h, String.utf8ByteSize_append, lead]
  split
  · rename_i hbase
    rw [hbase]
  · split
    · exact Nat.le_refl _
    · rw [String.utf8ByteSize_append]
      omega

theorem toList_prefix_append {base child : String} (h : isAbsolute child = false) :
    base.toList <+: (append base child).toList := by
  rw [append_eq_lead h, String.toList_append, lead]
  split
  · rename_i hbase
    rw [hbase]
    exact List.nil_prefix
  · split
    · exact List.prefix_append _ _
    · rw [String.toList_append, List.append_assoc]
      exact List.prefix_append _ _

/-! ## Going down -/

/-- The path that names lead to, put after a path one after the other. -/
def descend (base : String) (names : List String) : String := names.foldl append base

theorem descend_eq_append {names : List String} (hne : names ≠ [])
    (h : ∀ name ∈ names, IsName name) (base : String) :
    descend base names = append base (ofNames names) := by
  induction names generalizing base with
  | nil => exact absurd rfl hne
  | cons name names ih =>
      have hname := h name List.mem_cons_self
      by_cases hrest : names = []
      · subst hrest
        exact congrArg (append base) (String.ofList_toList).symm
      · have hnames : ∀ other ∈ names, IsName other := fun other hmem =>
          h other (List.mem_cons_of_mem name hmem)
        have hlater : descend base (name :: names) = append (append base name) (ofNames names) :=
          ih hrest hnames (append base name)
        rw [hlater, append_eq_lead (not_isAbsolute_ofNames hnames), lead_append hname,
          append_eq_lead (not_isAbsolute_of_isName hname), append_eq_lead (not_isAbsolute_ofNames h),
          ofNames_cons name hrest, String.append_assoc, String.append_assoc]

theorem toList_prefix_descend {names : List String} (h : ∀ name ∈ names, IsName name)
    (base : String) : base.toList <+: (descend base names).toList := by
  induction names generalizing base with
  | nil => exact List.prefix_refl _
  | cons name names ih =>
      have hname := not_isAbsolute_of_isName (h name List.mem_cons_self)
      exact (toList_prefix_append hname).trans
        (ih (fun other hmem => h other (List.mem_cons_of_mem name hmem)) (append base name))

end SealedModules.Path
