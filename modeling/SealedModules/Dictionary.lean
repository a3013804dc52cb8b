/-
# Dictionaries

A finite map from texts, kept as a list with strictly increasing keys.  The
order makes the representation canonical: whatever is listed or written from
a dictionary depends on what it maps and not on how it was built.
-/

namespace SealedModules

/-- A finite map from texts. -/
structure Dictionary (α : Type) where
  entries : List (String × α)
  sorted : entries.Pairwise fun a b => a.1 < b.1

namespace Dictionary

variable {α : Type}

/-- The dictionary without entries. -/
def empty : Dictionary α := ⟨[], List.Pairwise.nil⟩

/-- An entry put in its place in a sorted list, in the place of an older
entry with its key. -/
def insertSorted (key : String) (value : α) : List (String × α) → List (String × α)
  | [] => [(key, value)]
  | entry :: rest =>
    if key < entry.1 then (key, value) :: entry :: rest
    else if key = entry.1 then (key, value) :: rest
    else entry :: insertSorted key value rest

theorem mem_insertSorted {key : String} {value : α} {entries : List (String × α)}
    {entry : String × α} (h : entry ∈ insertSorted key value entries) :
    entry = (key, value) ∨ entry ∈ entries := by
  induction entries with
  | nil => simpa [insertSorted] using h
  | cons head rest ih =>
    unfold insertSorted at h
    split at h
    · simpa using h
    · split at h
      · rcases List.mem_cons.mp h with h | h
        · exact .inl h
        · exact .inr (List.mem_cons_of_mem _ h)
      · rcases List.mem_cons.mp h with h | h
        · exact .inr (h ▸ List.mem_cons_self ..)
        · exact (ih h).imp_right (List.mem_cons_of_mem _)

theorem sorted_insertSorted (key : String) (value : α) {entries : List (String × α)}
    (h : entries.Pairwise fun a b => a.1 < b.1) :
    (insertSorted key value entries).Pairwise fun a b => a.1 < b.1 := by
  induction entries with
  | nil => simp [insertSorted]
  | cons head rest ih =>
    obtain ⟨hhead, hrest⟩ := List.pairwise_cons.mp h
    unfold insertSorted
    split
    · rename_i hlt
      refine List.pairwise_cons.mpr ⟨fun entry hentry => ?_, h⟩
      rcases List.mem_cons.mp hentry with rfl | hentry
      · exact hlt
      · exact String.lt_trans hlt (hhead _ hentry)
    · split
      · rename_i heq
        refine List.pairwise_cons.mpr ⟨fun entry hentry => ?_, hrest⟩
        simpa [heq] using hhead _ hentry
      · rename_i hnlt hne
        refine List.pairwise_cons.mpr ⟨fun entry hentry => ?_, ih hrest⟩
        rcases mem_insertSorted hentry with rfl | hentry
        · have hle : head.1 ≤ key := String.not_lt.mp hnlt
          refine Std.lt_of_le_of_ne hle (fun he => hne he.symm)
        · exact hhead _ hentry

/-- The dictionary with `value` under `key`. -/
def insert (d : Dictionary α) (key : String) (value : α) : Dictionary α :=
  ⟨insertSorted key value d.entries, sorted_insertSorted key value d.sorted⟩

/-- The value under a key. -/
def get? (d : Dictionary α) (key : String) : Option α :=
  (d.entries.find? fun entry => entry.1 = key).map (·.2)

/-- Whether there is a value under a key. -/
def contains (d : Dictionary α) (key : String) : Bool := (d.get? key).isSome

/-- The keys in increasing order. -/
def keys (d : Dictionary α) : List String := d.entries.map (·.1)

/-- The number of keys. -/
def size (d : Dictionary α) : Nat := d.entries.length

/-- The dictionary of a list of entries, later ones replacing earlier ones. -/
def ofList (entries : List (String × α)) : Dictionary α :=
  entries.foldl (fun d entry => d.insert entry.1 entry.2) empty

end Dictionary

end SealedModules
