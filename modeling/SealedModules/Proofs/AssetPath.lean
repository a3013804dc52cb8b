/-
# Spellings of asset paths

A path is in normal form if it has no backslash, does not start with `./` and
does not end in a slash.  `normalize` gives a path in normal form and leaves
such a path as it is (`normalize_of_isNormal`), so a spelling that an asset was
stored under once is not changed when it is stored again.

Taking slashes off the end cannot bring a `./` to the start, since what is left
is the start of what there was: this is why one pass is enough.
-/
import SealedModules.Asset.Path

namespace SealedModules.AssetPath

/-- What normalizing leaves of a path. -/
structure IsNormal (cs : List Char) : Prop where
  no_backslash : '\\' ∉ cs
  no_here : ¬ ['.', '/'] <+: cs
  no_slash : cs.getLast? ≠ some '/'

theorem not_mem_replace (old new : Char) (hne : new ≠ old) (cs : List Char) :
    old ∉ Text.replace old new cs := by
  intro hmem
  obtain ⟨c, -, hc⟩ := List.mem_map.mp hmem
  split at hc
  · exact hne hc
  · contradiction

theorem replace_of_not_mem {old new : Char} {cs : List Char} (h : old ∉ cs) :
    Text.replace old new cs = cs := by
  have hkeep : ∀ c ∈ cs, (if c = old then new else c) = c := by
    intro c hc
    have hne : c ≠ old := fun heq => h (heq ▸ hc)
    exact if_neg hne
  exact (List.map_congr_left hkeep).trans (List.map_id' cs)

theorem dropHere_suffix (cs : List Char) : dropHere cs <:+ cs := by
  fun_induction dropHere cs with
  | case1 cs ih => exact ih.trans ⟨['.', '/'], rfl⟩
  | case2 cs => exact List.suffix_rfl

theorem not_here_dropHere (cs : List Char) : ¬ ['.', '/'] <+: dropHere cs := by
  fun_induction dropHere cs with
  | case1 cs ih => exact ih
  | case2 cs h =>
      rintro ⟨rest, rfl⟩
      exact h rest rfl

theorem dropHere_of_not_here {cs : List Char} (h : ¬ ['.', '/'] <+: cs) : dropHere cs = cs := by
  fun_cases dropHere cs with
  | case1 rest => exact absurd ⟨rest, rfl⟩ h
  | case2 => rfl

theorem dropSlashes_prefix (cs : List Char) : dropSlashes cs <+: cs := by
  have h := List.dropWhile_suffix (l := cs.reverse) (fun c => decide (c = '/'))
  rw [← List.reverse_prefix, List.reverse_reverse] at h
  exact h

theorem getLast?_dropSlashes (cs : List Char) : (dropSlashes cs).getLast? ≠ some '/' := by
  intro h
  rw [dropSlashes, List.getLast?_reverse] at h
  have hhead := List.head?_dropWhile_not (fun c => decide (c = '/')) cs.reverse
  rw [h] at hhead
  cases hhead

theorem dropSlashes_of_not_slash {cs : List Char} (h : cs.getLast? ≠ some '/') :
    dropSlashes cs = cs := by
  rw [dropSlashes]
  cases hcs : cs.reverse with
  | nil => rw [List.dropWhile_nil, ← hcs, List.reverse_reverse]
  | cons c rest =>
      have hlast : cs.getLast? = some c := by
        rw [← List.head?_reverse, hcs]
        rfl
      have hc : c ≠ '/' := fun heq => h (heq ▸ hlast)
      rw [List.dropWhile_cons_of_neg (by simpa using hc), ← hcs, List.reverse_reverse]

theorem isNormal_normalize (path : String) : IsNormal (normalize path).toList := by
  rw [normalize, String.toList_ofList]
  have hfront := dropSlashes_prefix (dropHere (Text.replace '\\' '/' path.toList))
  refine ⟨fun hmem => ?_, fun hhere => ?_, getLast?_dropSlashes _⟩
  · exact not_mem_replace '\\' '/' (by decide) path.toList
      ((dropHere_suffix _).subset (hfront.subset hmem))
  · exact not_here_dropHere _ (hhere.trans hfront)

theorem normalize_of_isNormal {path : String} (h : IsNormal path.toList) :
    normalize path = path := by
  rw [normalize, replace_of_not_mem h.no_backslash, dropHere_of_not_here h.no_here,
    dropSlashes_of_not_slash h.no_slash, String.ofList_toList]

@[simp] theorem normalize_normalize (path : String) : normalize (normalize path) = normalize path :=
  normalize_of_isNormal (isNormal_normalize path)

end SealedModules.AssetPath
