/-
# Joined asset paths

An asset path is the way from the top of the store to a place: its segments are
taken one after the other, and those that lead up lead no further than the top.
So joining a path to a root is following the one and then the other
(`join_eq_ofNames_follow`), in the same way as a path on disk is followed, and
what comes out is made of pieces only (`isPiece_of_mem_follow`).

A path made of pieces leads to just these pieces (`follow_pieces_ofNames`).  This
is why joined paths are spelled the way they are stored, and why it does not
matter whether a root is folded before something is joined to it.  No pieces at
all make the empty path, which has a segment, but one that says nothing.
-/
import SealedModules.Proofs.IndexedTree

namespace SealedModules

/-! ## Following segments -/

namespace Disk

theorem isPiece_of_mem_step {place : Location} {segment : String}
    (hslash : '/' ∉ segment.toList) (hback : '\\' ∉ segment.toList)
    (h : ∀ name ∈ place, Path.IsPiece name) : ∀ name ∈ step place segment, Path.IsPiece name := by
  intro name hmem
  by_cases hstay : segment = "" ∨ segment = "."
  · rw [step, if_pos hstay] at hmem
    exact h name hmem
  · rw [step, if_neg hstay] at hmem
    split at hmem
    · exact h name (List.mem_of_mem_dropLast hmem)
    · rename_i hup
      rcases List.mem_append.mp hmem with hmem | hmem
      · exact h name hmem
      · obtain rfl := List.mem_singleton.mp hmem
        have hproper : IsProper name := ⟨fun heq => hstay (.inl heq), fun heq => hstay (.inr heq), hup⟩
        exact ⟨⟨hproper, hslash⟩, hback⟩

theorem isPiece_of_mem_follow {segments : List String}
    (hsegments : ∀ segment ∈ segments, '/' ∉ segment.toList ∧ '\\' ∉ segment.toList)
    {place : Location} (h : ∀ name ∈ place, Path.IsPiece name) :
    ∀ name ∈ follow place segments, Path.IsPiece name := by
  induction segments generalizing place with
  | nil => exact h
  | cons segment segments ih =>
      obtain ⟨hslash, hback⟩ := hsegments segment List.mem_cons_self
      exact ih (fun other hmem => hsegments other (List.mem_cons_of_mem segment hmem))
        (isPiece_of_mem_step hslash hback h)

end Disk

namespace AssetPath

/-- The segments of a path as texts. -/
def pieces (path : String) : List String := (segments path).map String.ofList

/-- The names on a stack, from the bottom up. -/
def unstack (stack : List (List Char)) : Location := stack.reverse.map String.ofList

/-- A segment is put on a stack as it is followed on disk. -/
theorem unstack_push (stack : List (List Char)) (segment : List Char) :
    unstack (push stack segment) = Disk.step (unstack stack) (String.ofList segment) := by
  have hsame (other : List Char) : String.ofList segment = String.ofList other ↔ segment = other :=
    String.ofList_inj
  by_cases hstay : segment = [] ∨ segment = ['.']
  · have hstay' : String.ofList segment = "" ∨ String.ofList segment = "." :=
      hstay.imp (hsame []).mpr (hsame ['.']).mpr
    rw [push, if_pos hstay, Disk.step, if_pos hstay']
  · have hstay' : ¬ (String.ofList segment = "" ∨ String.ofList segment = ".") := fun h =>
      hstay (h.imp (hsame []).mp (hsame ['.']).mp)
    rw [push, if_neg hstay, Disk.step, if_neg hstay']
    by_cases hup : segment = ['.', '.']
    · have hup' : String.ofList segment = ".." := (hsame ['.', '.']).mpr hup
      rw [if_pos hup, if_pos hup', unstack, unstack, ← List.dropLast_reverse,
        List.map_dropLast]
    · have hup' : ¬ String.ofList segment = ".." := fun h => hup ((hsame ['.', '.']).mp h)
      rw [if_neg hup, if_neg hup', unstack, List.reverse_cons, List.map_append]
      rfl

theorem unstack_foldl_push (segments : List (List Char)) (stack : List (List Char)) :
    unstack (segments.foldl push stack) =
      Disk.follow (unstack stack) (segments.map String.ofList) := by
  induction segments generalizing stack with
  | nil => rfl
  | cons segment segments ih =>
      have hrest := ih (push stack segment)
      rw [unstack_push] at hrest
      exact hrest

/-! ## Joining is following -/

theorem pieces_append (root relative : String) :
    pieces (root ++ "/" ++ relative) = pieces root ++ pieces relative := by
  have hwhole : Text.replace '\\' '/' (root ++ "/" ++ relative).toList =
      Text.replace '\\' '/' root.toList ++ '/' :: Text.replace '\\' '/' relative.toList := by
    simp only [Text.replace, String.toList_append, List.map_append, List.append_assoc]
    rfl
  rw [pieces, segments, hwhole, Text.split_append, List.map_append]
  rfl

theorem follow_pieces_empty (place : Location) : Disk.follow place (pieces "") = place :=
  Disk.follow_of_silent (List.forall_mem_singleton.mpr rfl) place

theorem join_eq_ofNames_follow (root : Option String) (relative : String) :
    join root relative =
      Path.ofNames (Disk.follow (Disk.follow [] (pieces (root.getD ""))) (pieces relative)) := by
  have hresolve (path : String) : String.ofList (Text.join '/' (resolve (segments path))) =
      Path.ofNames (Disk.follow [] (pieces path)) := by
    have hnames : Disk.follow [] (pieces path) = (resolve (segments path)).map String.ofList :=
      (unstack_foldl_push (segments path) []).symm
    have hpieces : (Disk.follow [] (pieces path)).map String.toList = resolve (segments path) := by
      rw [hnames, List.map_map]
      exact List.map_id'' (fun piece => String.toList_ofList) _
    rw [Path.ofNames, hpieces]
  cases root with
  | none =>
      rw [Option.getD_none, follow_pieces_empty]
      exact hresolve relative
  | some root =>
      by_cases hroot : root = ""
      · subst hroot
        rw [Option.getD_some, follow_pieces_empty]
        exact hresolve relative
      · rw [Option.getD_some, ← Disk.follow_append, ← pieces_append, ← hresolve, join]
        simp only [if_neg hroot]

theorem not_slash_of_mem_pieces {path piece : String} (h : piece ∈ pieces path) :
    '/' ∉ piece.toList ∧ '\\' ∉ piece.toList := by
  obtain ⟨segment, hsegment, rfl⟩ := List.mem_map.mp h
  rw [String.toList_ofList]
  refine ⟨Text.not_mem_of_mem_split hsegment, fun hback => ?_⟩
  exact not_mem_replace '\\' '/' (by decide) path.toList (Text.mem_of_mem_split hsegment hback)

theorem isPiece_of_mem_follow_pieces {place : Location} (h : ∀ name ∈ place, Path.IsPiece name)
    (path : String) : ∀ name ∈ Disk.follow place (pieces path), Path.IsPiece name :=
  Disk.isPiece_of_mem_follow (fun _ hmem => not_slash_of_mem_pieces hmem) h

/-! ## Paths made of pieces -/

theorem follow_pieces_ofNames {names : List String} (h : ∀ name ∈ names, Path.IsPiece name) :
    Disk.follow [] (pieces (Path.ofNames names)) = names := by
  by_cases hne : names = []
  · subst hne
    exact follow_pieces_empty []
  · have hpieces : pieces (Path.ofNames names) = names := by
      rw [pieces, segments, replace_of_not_mem (Path.no_backslash_ofNames h)]
      exact Path.segments_ofNames hne fun name hmem => (h name hmem).isName
    rw [hpieces]
    exact Disk.follow_of_isProper (fun name hmem => (h name hmem).isName.proper) []

theorem join_none_ofNames {names : List String} (h : ∀ name ∈ names, Path.IsPiece name) :
    join none (Path.ofNames names) = Path.ofNames names := by
  rw [join_eq_ofNames_follow, Option.getD_none, follow_pieces_empty, follow_pieces_ofNames h]

theorem normalize_ofNames_of_pieces {names : List String} (h : ∀ name ∈ names, Path.IsPiece name) :
    normalize (Path.ofNames names) = Path.ofNames names := by
  by_cases hne : names = []
  · subst hne
    decide
  · exact normalize_ofNames hne h

/-- Between pieces there is a slash, and at neither end. -/
theorem no_slash_at_ends {names : List String} (h : ∀ name ∈ names, Path.IsPiece name) :
    (Path.ofNames names).toList.head? ≠ some '/' ∧
      (Path.ofNames names).toList.getLast? ≠ some '/' := by
  have hrelative := Path.not_isAbsolute_ofNames fun name hmem => (h name hmem).isName
  have hnormal := isNormal_normalize (Path.ofNames names)
  rw [normalize_ofNames_of_pieces h] at hnormal
  exact ⟨of_decide_eq_false hrelative, hnormal.no_slash⟩

end AssetPath

namespace AssetIndex

/-- What an entry is opened to. -/
def openEntry (disk : Disk) : AssetEntry → Except AssetError Asset
  | .embedded bytes => .ok ⟨bytes.length, { rest := bytes }⟩
  | .onDisk file =>
    match disk.openFile file with
    | .error fault => .error (.failed fault)
    | .ok (length, reader) => .ok ⟨length, reader⟩

theorem looked_up_of_normal {path : String} (h : AssetPath.normalize path = path)
    (index : AssetIndex) (disk : Disk) :
    index.holds path = index.contains path ∧
      index.fetch disk path =
        (index.get? path).elim (.error (.notFound path)) (openEntry disk) := by
  unfold holds fetch
  rw [h]
  refine ⟨rfl, ?_⟩
  rcases index.get? path with _ | ⟨file⟩ | ⟨bytes⟩
  · rfl
  · rfl
  · rfl

end AssetIndex

namespace AssetPath

/-! ## The law of joining -/

/-- Whatever the root and the path, joining leaves the names that are left when
the segments of the root and then those of the path are followed from the top,
where two dots lead up if they can.  Each of them is a piece, so the joined path
neither starts nor ends in a slash.  It is not changed by joining it to no root
or by normalizing it, so it is looked up as it is; and a root can be folded
before the path is joined to it. -/
theorem join_is_the_path_of_followed_segments (root : Option String) (relative : String) :
    ∃ names, names = Disk.follow (Disk.follow [] (pieces (root.getD ""))) (pieces relative) ∧
      (∀ name ∈ names, Path.IsPiece name) ∧
      let path := join root relative
      path = Path.ofNames names ∧ path.toList.head? ≠ some '/' ∧ path.toList.getLast? ≠ some '/' ∧
        join none path = path ∧ normalize path = path ∧
        (∀ (index : AssetIndex) (disk : Disk), index.holds path = index.contains path ∧
          index.fetch disk path =
            (index.get? path).elim (.error (.notFound path)) (AssetIndex.openEntry disk)) ∧
        join (root.map (join none)) relative = path := by
  refine ⟨_, rfl, ?_⟩
  generalize hfollow : Disk.follow (Disk.follow [] (pieces (root.getD ""))) (pieces relative) = names
  have hroot : ∀ name ∈ Disk.follow [] (pieces (root.getD "")), Path.IsPiece name :=
    isPiece_of_mem_follow_pieces (fun _ hmem => absurd hmem List.not_mem_nil) _
  have hnames : ∀ name ∈ names, Path.IsPiece name :=
    hfollow ▸ isPiece_of_mem_follow_pieces hroot relative
  refine ⟨hnames, ?_⟩
  intro path
  have hpath : path = Path.ofNames names := hfollow ▸ join_eq_ofNames_follow root relative
  have hspelled : normalize path = path := hpath ▸ normalize_ofNames_of_pieces hnames
  have hends := no_slash_at_ends hnames
  rw [← hpath] at hends
  refine ⟨hpath, hends.1, hends.2, ?_, hspelled, ?_, ?_⟩
  · rw [hpath]
    exact join_none_ofNames hnames
  · exact AssetIndex.looked_up_of_normal hspelled
  · cases root with
    | none => rfl
    | some root =>
        -- the folded root leads to where the root leads
        have hfolded : Disk.follow [] (pieces (join none root)) = Disk.follow [] (pieces root) := by
          rw [join_eq_ofNames_follow, Option.getD_none, follow_pieces_empty]
          exact follow_pieces_ofNames hroot
        rw [Option.map_some, join_eq_ofNames_follow, Option.getD_some, hfolded, hpath]
        exact congrArg Path.ofNames hfollow

/-- The law at a root that the path leads out of: what is joined is `a/b.lua`. -/
theorem join_leads_out_of_a_root :
    let relative := "..\\..//../a/./b.lua"
    join (some ".\\game/ui\\") relative = "a/b.lua" ∧
      join (some (join none ".\\game/ui\\")) relative = "a/b.lua" ∧
      Path.IsPiece "a" ∧ Path.IsPiece "b.lua" ∧ normalize "a/b.lua" = "a/b.lua" := by
  intro relative
  have hpath : join (some ".\\game/ui\\") relative = "a/b.lua" := by decide +kernel
  have hnames : Disk.follow (Disk.follow [] (pieces ".\\game/ui\\")) (pieces relative) =
      ["a", "b.lua"] := by decide +kernel
  obtain ⟨names, heq, hpieces, -, -, -, -, hspelled, -, hfolded⟩ :=
    join_is_the_path_of_followed_segments (some ".\\game/ui\\") relative
  rw [heq, Option.getD_some, hnames] at hpieces
  rw [hpath] at hspelled hfolded
  exact ⟨hpath, hfolded, hpieces "a" (by decide), hpieces "b.lua" (by decide), hspelled⟩

end AssetPath

end SealedModules
