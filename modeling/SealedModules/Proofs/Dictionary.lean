/-
# Looking up in dictionaries

Inserting changes what is under one key (`get?_insert`), and the keys are
listed in increasing order with none left out or listed twice.  So an entry is
listed exactly if it is found under its key, and a dictionary is what it maps
(`ext_get?`), however it was built.

Texts are ordered by their characters, and that is the order of their bytes
(`Utf8.encode_lt_encode`), so a listing of keys is sorted by bytes as well, and
sorting the entries in that way brings them back into the order they are kept
in (`sortByBytes_of_perm`).
-/
import SealedModules.Dictionary
import SealedModules.Proofs.Utf8

namespace SealedModules.Dictionary

variable {α : Type}

theorem get?_empty (key : String) : (empty : Dictionary α).get? key = none := rfl

theorem find?_insertSorted (key other : String) (value : α) (entries : List (String × α)) :
    ((insertSorted key value entries).find? fun entry => entry.1 = other).map (·.2) =
      if other = key then some value
      else (entries.find? fun entry => entry.1 = other).map (·.2) := by
  induction entries with
  | nil =>
      by_cases h : other = key
      · simp [insertSorted, h]
      · simp [insertSorted, h, Ne.symm h]
  | cons head rest ih =>
      unfold insertSorted
      split
      · by_cases h : other = key
        · simp [h]
        · rw [List.find?_cons_of_neg (by simpa using Ne.symm h), if_neg h]
      · split
        · rename_i heq
          by_cases h : other = key
          · simp [h]
          · rw [List.find?_cons_of_neg (by simpa using Ne.symm h), if_neg h,
              List.find?_cons_of_neg (by simpa [← heq] using Ne.symm h)]
        · rename_i hne
          by_cases h : head.1 = other
          · have hother : other ≠ key := fun heq => hne (heq ▸ h.symm)
            rw [List.find?_cons_of_pos (by simpa using h),
              List.find?_cons_of_pos (by simpa using h), if_neg hother]
          · rw [List.find?_cons_of_neg (by simpa using h), ih,
              List.find?_cons_of_neg (by simpa using h)]

theorem get?_insert (d : Dictionary α) (key other : String) (value : α) :
    (d.insert key value).get? other = if other = key then some value else d.get? other :=
  find?_insertSorted key other value d.entries

theorem get?_eq_some_iff {d : Dictionary α} {key : String} {value : α} :
    d.get? key = some value ↔ (key, value) ∈ d.entries := by
  unfold get?
  constructor
  · intro h
    obtain ⟨entry, hfind, rfl⟩ := Option.map_eq_some_iff.mp h
    have hkey : entry.1 = key := by simpa using List.find?_some hfind
    exact hkey ▸ List.mem_of_find?_eq_some hfind
  · intro hmem
    -- a key that stood before the entry would be smaller than itself
    obtain ⟨before, after, hsplit⟩ := List.append_of_mem hmem
    have hbefore : ∀ entry ∈ before, entry.1 ≠ key := by
      intro entry hentry heq
      have hsorted := d.sorted
      rw [hsplit] at hsorted
      have hlt := (List.pairwise_append.mp hsorted).2.2 entry hentry _ List.mem_cons_self
      exact String.lt_irrefl key (heq ▸ hlt)
    have hfind : d.entries.find? (fun entry => entry.1 = key) = some (key, value) := by
      refine List.find?_eq_some_iff_append.mpr ⟨by simp, before, after, hsplit, ?_⟩
      intro entry hentry
      simpa using hbefore entry hentry
    rw [hfind]
    rfl

theorem mem_keys_iff {d : Dictionary α} {key : String} :
    key ∈ d.keys ↔ ∃ value, d.get? key = some value := by
  constructor
  · intro h
    obtain ⟨⟨found, value⟩, hentry, rfl⟩ := List.mem_map.mp h
    exact ⟨value, get?_eq_some_iff.mpr hentry⟩
  · rintro ⟨value, h⟩
    exact List.mem_map.mpr ⟨(key, value), get?_eq_some_iff.mp h, rfl⟩

theorem contains_iff_mem_keys {d : Dictionary α} {key : String} :
    d.contains key = true ↔ key ∈ d.keys := by
  rw [contains, Option.isSome_iff_exists, mem_keys_iff]

theorem nodup_entries (d : Dictionary α) : d.entries.Nodup := by
  refine d.sorted.imp fun h heq => ?_
  exact String.lt_irrefl _ (heq ▸ h)

/-- A dictionary is what it maps. -/
theorem ext_get? {d d' : Dictionary α} (h : ∀ key, d.get? key = d'.get? key) : d = d' := by
  have hmem : ∀ entry, entry ∈ d.entries ↔ entry ∈ d'.entries := by
    rintro ⟨key, value⟩
    rw [← get?_eq_some_iff, ← get?_eq_some_iff, h]
  have hperm : d.entries.Perm d'.entries :=
    (List.perm_ext_iff_of_nodup d.nodup_entries d'.nodup_entries).mpr hmem
  have hentries : d.entries = d'.entries := by
    refine List.Perm.eq_of_pairwise (fun a b _ _ hab hba => ?_) d.sorted d'.sorted hperm
    exact absurd (String.lt_trans hab hba) (String.lt_irrefl _)
  cases d
  cases d'
  cases hentries
  rfl

/-! ## Changing the values -/

/-- The dictionary with every value replaced by what `f` makes of it. -/
def map {β : Type} (f : α → β) (d : Dictionary α) : Dictionary β where
  entries := d.entries.map fun entry => (entry.1, f entry.2)
  sorted := List.pairwise_map.mpr d.sorted

variable {β : Type}

theorem get?_map (f : α → β) (d : Dictionary α) (key : String) :
    (d.map f).get? key = (d.get? key).map f := by
  simp only [get?, map, List.find?_map, Option.map_map]
  rfl

theorem keys_map (f : α → β) (d : Dictionary α) : (d.map f).keys = d.keys := by
  simp only [keys, map, List.map_map]
  rfl

/-! ## Building in order -/

theorem insertSorted_of_forall_lt {entries : List (String × α)} {key : String} (value : α)
    (h : ∀ entry ∈ entries, entry.1 < key) :
    insertSorted key value entries = entries ++ [(key, value)] := by
  induction entries with
  | nil => rfl
  | cons head rest ih =>
      have hhead : head.1 < key := h head List.mem_cons_self
      have hrest := ih fun entry hentry => h entry (List.mem_cons_of_mem _ hentry)
      have hne : key ≠ head.1 := fun heq => String.lt_irrefl key (heq ▸ hhead)
      rw [insertSorted, if_neg fun hlt => String.lt_irrefl _ (String.lt_trans hlt hhead),
        if_neg hne, hrest]
      rfl

theorem entries_foldl_insert (entries : List (String × α)) (d : Dictionary α)
    (h : (d.entries ++ entries).Pairwise fun a b => a.1 < b.1) :
    (entries.foldl (fun d entry => d.insert entry.1 entry.2) d).entries = d.entries ++ entries := by
  induction entries generalizing d with
  | nil => exact (List.append_nil _).symm
  | cons entry entries ih =>
      have hlast : (d.insert entry.1 entry.2).entries = d.entries ++ [entry] :=
        insertSorted_of_forall_lt entry.2 fun other hother =>
          (List.pairwise_append.mp h).2.2 other hother entry List.mem_cons_self
      rw [List.foldl_cons, ih, hlast, List.append_assoc]
      · rfl
      · rwa [hlast, List.append_assoc]

theorem ofList_entries (d : Dictionary α) : ofList d.entries = d := by
  have hentries : (ofList d.entries).entries = d.entries :=
    entries_foldl_insert d.entries empty d.sorted
  refine ext_get? fun key => ?_
  rw [get?, hentries]
  rfl

theorem mem_of_get?_foldl_insert {entries : List (String × α)} {d : Dictionary α} {key : String}
    {value : α}
    (h : (entries.foldl (fun d entry => d.insert entry.1 entry.2) d).get? key = some value) :
    (key, value) ∈ entries ∨ d.get? key = some value := by
  induction entries generalizing d with
  | nil => exact .inr h
  | cons entry entries ih =>
      rcases ih h with hmem | hget
      · exact .inl (List.mem_cons_of_mem _ hmem)
      · rw [get?_insert] at hget
        split at hget
        · rename_i hkey
          obtain rfl := Option.some.inj hget
          exact .inl (hkey ▸ List.mem_cons_self)
        · exact .inr hget

theorem mem_of_get?_ofList {entries : List (String × α)} {key : String} {value : α}
    (h : (ofList entries).get? key = some value) : (key, value) ∈ entries := by
  rcases mem_of_get?_foldl_insert h with hmem | hempty
  · exact hmem
  · cases hempty

theorem exists_get?_ofList {entries : List (String × α)} {entry : String × α}
    (h : entry ∈ entries) : ∃ value, (ofList entries).get? entry.1 = some value := by
  have hkept (later : List (String × α)) (d : Dictionary α)
      (hd : ∃ value, d.get? entry.1 = some value) :
      ∃ value, (later.foldl (fun d entry => d.insert entry.1 entry.2) d).get? entry.1 =
        some value := by
    induction later generalizing d with
    | nil => exact hd
    | cons next later ih =>
        refine ih _ ?_
        rw [get?_insert]
        split
        · exact ⟨next.2, rfl⟩
        · exact hd
  obtain ⟨before, after, rfl⟩ := List.append_of_mem h
  rw [ofList, List.foldl_append]
  refine hkept after _ ⟨entry.2, ?_⟩
  rw [get?_insert, if_pos rfl]

/-! ## The order of the keys -/

theorem pairwise_encode_keys (d : Dictionary α) :
    (d.keys.map Utf8.encode).Pairwise (· < ·) := by
  unfold keys
  rw [List.map_map, List.pairwise_map]
  exact d.sorted.imp fun h => Utf8.encode_lt_encode h

theorem eq_of_encode_le {d : Dictionary α} {a b : String × α} (ha : a ∈ d.entries)
    (hb : b ∈ d.entries) (hle : Utf8.encode a.1 ≤ Utf8.encode b.1)
    (hle' : Utf8.encode b.1 ≤ Utf8.encode a.1) : a = b := by
  obtain ⟨key, value⟩ := a
  obtain ⟨key', value'⟩ := b
  have hkey : key = key' := by
    have hbytes : Utf8.encode key = Utf8.encode key' := List.le_antisymm hle hle'
    rw [← Utf8.decode_encode key, hbytes, Utf8.decode_encode]
  subst hkey
  have hfound := get?_eq_some_iff.mpr ha
  rw [get?_eq_some_iff.mpr hb] at hfound
  rw [Option.some.inj hfound]

/-- Entries sorted by the bytes of their keys. -/
def sortByBytes (entries : List (String × α)) : List (String × α) :=
  entries.mergeSort fun a b => decide (Utf8.encode a.1 ≤ Utf8.encode b.1)

theorem pairwise_sortByBytes (entries : List (String × α)) :
    (sortByBytes entries).Pairwise fun a b => Utf8.encode a.1 ≤ Utf8.encode b.1 := by
  have hsorted : (sortByBytes entries).Pairwise fun a b =>
      decide (Utf8.encode a.1 ≤ Utf8.encode b.1) = true := by
    refine List.pairwise_mergeSort (fun a b c hab hbc => ?_) (fun a b => ?_) entries
    · simp only [decide_eq_true_eq] at hab hbc ⊢
      exact List.le_trans hab hbc
    · simp only [Bool.or_eq_true, decide_eq_true_eq]
      exact List.le_total _ _
  exact hsorted.imp fun hle => of_decide_eq_true hle

/-- Sorting by the bytes of the keys puts the entries of a dictionary in the
order they are kept in, whatever order they come in. -/
theorem sortByBytes_of_perm {d : Dictionary α} {entries : List (String × α)}
    (h : entries.Perm d.entries) : sortByBytes entries = d.entries := by
  have hperm : (sortByBytes entries).Perm d.entries := (List.mergeSort_perm _ _).trans h
  have hkept : d.entries.Pairwise fun a b => Utf8.encode a.1 ≤ Utf8.encode b.1 :=
    d.sorted.imp fun hlt => List.le_of_lt (Utf8.encode_lt_encode hlt)
  exact List.Perm.eq_of_pairwise
    (fun a b ha hb hle hle' => eq_of_encode_le (hperm.subset ha) hb hle hle')
    (pairwise_sortByBytes entries) hkept hperm

end SealedModules.Dictionary
