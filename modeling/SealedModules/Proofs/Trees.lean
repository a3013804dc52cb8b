/-
# Trees of regular files

A disk could hold entries of one name twice, or names that no path leads to.
Trees that a program meets have neither (`IsTree`), and then a place in a tree
is told by its names, and a path made of the names leads there
(`lookup_append_iff`).

The listing goes through the entries, and looks at a directory only if the path
that it has come to is one that can be opened; so it takes a directory whose own
path is too long for a file (`mem_listNode_iff`).
-/
import SealedModules.Proofs.Places

namespace SealedModules

/-- A name that an entry of a directory can have, without a backslash. -/
structure Path.IsPlain (name : String) : Prop extends IsPiece name where
  no_nul : '\x00' ∉ name.toList
  short : name.utf8ByteSize ≤ Disk.maxName

instance (name : String) : Decidable (Path.IsPlain name) :=
  decidable_of_iff (Path.IsPiece name ∧ '\x00' ∉ name.toList ∧ name.utf8ByteSize ≤ Disk.maxName)
    ⟨fun h => ⟨h.1, h.2.1, h.2.2⟩, fun h => ⟨h.toIsPiece, h.no_nul, h.short⟩⟩

namespace Node

/-- A tree of directories and regular files. -/
inductive IsTree : Node → Prop where
  | file (contents : Bytes) : IsTree (.file contents)
  | directory {entries : List (String × Node)} (plain : ∀ entry ∈ entries, Path.IsPlain entry.1)
      (distinct : (entries.map (·.1)).Nodup) (below : ∀ entry ∈ entries, entry.2.IsTree) :
      IsTree (.directory entries)

theorem lookup_eq_some_iff {entries : List (String × Node)} (h : (entries.map (·.1)).Nodup)
    {name : String} {node : Node} :
    entries.lookup name = some node ↔ (name, node) ∈ entries := by
  induction entries with
  | nil => simp
  | cons entry rest ih =>
      obtain ⟨hfirst, hrest⟩ := List.nodup_cons.mp h
      rw [List.lookup_cons]
      by_cases hname : name = entry.1
      · subst hname
        have hnot : (entry.1, node) ∉ rest := fun hmem =>
          hfirst (List.mem_map.mpr ⟨(entry.1, node), hmem, rfl⟩)
        simp only [beq_self_eq_true, List.mem_cons, hnot, or_false, Option.some.injEq]
        exact ⟨fun heq => heq ▸ rfl, fun heq => congrArg Prod.snd heq.symm⟩
      · rw [beq_false_of_ne hname]
        simp only [ih hrest, List.mem_cons]
        exact ⟨.inr, fun hmem => hmem.resolve_left fun heq => hname (congrArg Prod.fst heq)⟩

namespace IsTree

variable {node : Node} (h : node.IsTree)
include h

theorem child {child : Node} {name : String} (hchild : node.child? name = some child) :
    Path.IsPlain name ∧ child.IsTree := by
  cases h with
  | file contents => cases hchild
  | directory plain distinct below =>
      have hmem := (lookup_eq_some_iff distinct).mp hchild
      exact ⟨plain _ hmem, below _ hmem⟩

theorem at? {names : Location} {found : Node} (hfound : node.at? names = some found) :
    (∀ name ∈ names, Path.IsPlain name) ∧ found.IsTree := by
  induction names generalizing node with
  | nil =>
      obtain rfl := Option.some.inj hfound
      exact ⟨fun _ hmem => absurd hmem List.not_mem_nil, h⟩
  | cons name names ih =>
      obtain ⟨child, hchild, hfound⟩ := Option.bind_eq_some_iff.mp hfound
      obtain ⟨hname, htree⟩ := h.child hchild
      obtain ⟨hnames, htree⟩ := ih htree hfound
      exact ⟨List.forall_mem_cons.mpr ⟨hname, hnames⟩, htree⟩

theorem exists_file (hnot : node.isDirectory = false) : ∃ contents, node = .file contents := by
  cases h with
  | file contents => exact ⟨contents, rfl⟩
  | directory => cases hnot

end IsTree

theorem ne_nil_of_file {tree : Node} (htop : tree.isDirectory = true) {names : Location}
    {contents : Bytes} (h : tree.at? names = some (.file contents)) : names ≠ [] := by
  rintro rfl
  obtain rfl := Option.some.inj h
  cases htop

/-! ## Everything below -/

theorem mem_entryDescendants {entries : List (String × Node)} {place : Location × Node} :
    place ∈ entryDescendants entries ↔
      ∃ entry ∈ entries, place = ([entry.1], entry.2) ∨
        ∃ lower ∈ entry.2.descendants, place = (entry.1 :: lower.1, lower.2) := by
  induction entries with
  | nil => simp [entryDescendants]
  | cons entry entries ih =>
      obtain ⟨name, node⟩ := entry
      rw [entryDescendants, List.mem_append, List.mem_cons, ih, List.mem_map]
      simp only [List.mem_cons, exists_eq_or_imp, or_assoc, eq_comm]

theorem mem_descendants_of_at? {node found : Node} {names : Location} (hne : names ≠ [])
    (h : node.at? names = some found) : (names, found) ∈ node.descendants := by
  induction names generalizing node with
  | nil => exact absurd rfl hne
  | cons name names ih =>
      obtain ⟨child, hchild, hfound⟩ := Option.bind_eq_some_iff.mp h
      cases node with
      | file contents => cases hchild
      | directory entries =>
          obtain ⟨before, after, hsplit, -⟩ := List.lookup_eq_some_iff.mp hchild
          have hmem : (name, child) ∈ entries := by
            have hentries : entries = before ++ (name, child) :: after := hsplit
            rw [hentries]
            exact List.mem_append_right before List.mem_cons_self
          rw [descendants, mem_entryDescendants]
          refine ⟨(name, child), hmem, ?_⟩
          cases names with
          | nil =>
              obtain rfl := Option.some.inj hfound
              exact .inl rfl
          | cons next rest => exact .inr ⟨_, ih (List.cons_ne_nil next rest) hfound, rfl⟩

end Node

namespace Disk

/-! ## Listing -/

theorem pathFault?_eq_none_iff {path : String} :
    pathFault? path = none ↔
      '\x00' ∉ path.toList ∧ path ≠ "" ∧ path.utf8ByteSize < maxPath := by
  unfold pathFault?
  simp only [List.contains_iff_mem]
  constructor
  · intro h
    split at h
    · cases h
    · split at h
      · cases h
      · split at h
        · cases h
        · exact ⟨‹_›, ‹_›, Nat.not_le.mp ‹_›⟩
  · rintro ⟨hnul, hne, hsize⟩
    rw [if_neg hnul, if_neg hne, if_neg (Nat.not_le.mpr hsize)]

theorem pathFault?_append_iff {root : String} (hroot : pathFault? root = none)
    {names : List String} (h : ∀ name ∈ names, Path.IsPlain name) :
    pathFault? (Path.append root (Path.ofNames names)) = none ↔
      (Path.append root (Path.ofNames names)).utf8ByteSize < maxPath := by
  obtain ⟨hnul, hne, -⟩ := pathFault?_eq_none_iff.mp hroot
  have hrelative := Path.not_isAbsolute_ofNames fun name hmem => (h name hmem).isName
  rw [pathFault?_eq_none_iff]
  refine ⟨fun hsound => hsound.2.2, fun hsize => ⟨?_, fun hempty => hne ?_, hsize⟩⟩
  · exact Path.not_mem_append (by decide) hrelative hnul
      (Path.not_mem_ofNames (by decide) fun name hmem => (h name hmem).no_nul)
  · have hbegins : root.toList <+: (Path.append root (Path.ofNames names)).toList :=
      Path.toList_prefix_append hrelative
    rw [hempty] at hbegins
    exact String.toList_eq_nil_iff.mp (List.prefix_nil.mp hbegins)

theorem sound_of_prefix {front path : String} (hne : front ≠ "")
    (hbegins : front.toList <+: path.toList) (h : pathFault? path = none) :
    pathFault? front = none := by
  obtain ⟨hnul, -, hsize⟩ := pathFault?_eq_none_iff.mp h
  obtain ⟨rest, hrest⟩ := hbegins
  have hpath : path = front ++ String.ofList rest := by
    refine String.toList_injective ?_
    rw [String.toList_append, String.toList_ofList, hrest]
  rw [hpath, String.utf8ByteSize_append] at hsize
  refine pathFault?_eq_none_iff.mpr ⟨fun hmem => hnul ?_, hne, by omega⟩
  rw [← hrest]
  exact List.mem_append_left rest hmem

theorem sound_descend {path : String} {front back : List String} (hne : path ≠ "")
    (hnames : ∀ name ∈ front ++ back, Path.IsName name)
    (h : pathFault? (Path.descend path (front ++ back)) = none) :
    pathFault? (Path.descend path front) = none := by
  obtain ⟨hfront, hback⟩ := List.forall_mem_append.mp hnames
  rw [Path.descend, List.foldl_append] at h
  refine sound_of_prefix (fun hempty => hne ?_) (Path.toList_prefix_descend hback _) h
  have hbegins := Path.toList_prefix_descend hfront path
  rw [hempty] at hbegins
  exact String.toList_eq_nil_iff.mp (List.prefix_nil.mp hbegins)

theorem mem_listEntries {path : String} {entries : List (String × Node)} {names : Location} :
    names ∈ listEntries path entries ↔
      ∃ entry ∈ entries, ∃ rest ∈ listNode (Path.append path entry.1) entry.2,
        names = entry.1 :: rest := by
  induction entries with
  | nil => simp [listEntries]
  | cons entry entries ih =>
      obtain ⟨name, node⟩ := entry
      rw [listEntries, List.mem_append, ih, List.mem_map]
      simp only [List.mem_cons, exists_eq_or_imp, eq_comm]

/-- A place that is listed: it does not look like a directory, and all that it
lies in do. -/
structure Listed (path : String) (node : Node) (names : Location) (found : Node) : Prop where
  there : node.at? names = some found
  last : found.isDirectory = true → pathFault? (Path.descend path names) ≠ none
  outer : ∀ front, front <+: names → front ≠ names → pathFault? (Path.descend path front) = none

theorem listed_cons_iff {path name : String} {node found : Node} {names : Location} :
    Listed path node (name :: names) found ↔
      pathFault? path = none ∧
        ∃ child, node.child? name = some child ∧ Listed (Path.append path name) child names found := by
  constructor
  · rintro ⟨hthere, hlast, houter⟩
    obtain ⟨child, hchild, hthere⟩ := Option.bind_eq_some_iff.mp hthere
    refine ⟨houter [] List.nil_prefix nofun, child, hchild, hthere, hlast, ?_⟩
    intro front hbegins hne
    exact houter (name :: front) ((List.prefix_cons_inj name).mpr hbegins) (by simpa using hne)
  · rintro ⟨hsound, child, hchild, hthere, hlast, houter⟩
    refine ⟨Option.bind_eq_some_iff.mpr ⟨child, hchild, hthere⟩, hlast, ?_⟩
    intro front hbegins hne
    cases front with
    | nil => exact hsound
    | cons first front =>
        obtain ⟨rfl, hfront⟩ := List.cons_prefix_cons.mp hbegins
        exact houter front hfront fun heq => hne (congrArg _ heq)

theorem mem_listNode_iff {node : Node} (htree : node.IsTree) {path : String} {names : Location} :
    names ∈ listNode path node ↔ ∃ found, Listed path node names found := by
  induction htree generalizing path names with
  | file contents =>
      have hlist : listNode path (.file contents) = [[]] := by simp [listNode]
      rw [hlist, List.mem_singleton]
      constructor
      · rintro rfl
        refine ⟨.file contents, rfl, nofun, fun front hbegins hne => ?_⟩
        exact absurd (List.prefix_nil.mp hbegins) hne
      · rintro ⟨found, hthere, -, -⟩
        cases names with
        | nil => rfl
        | cons name names => cases hthere
  | @directory entries plain distinct below ih =>
      cases names with
      | nil =>
          rw [listNode]
          split
          · rename_i hfault
            refine iff_of_true List.mem_cons_self ⟨.directory entries, rfl, fun _ hnone => ?_, ?_⟩
            · have hsound : pathFault? path = none := hnone
              rw [hsound] at hfault
              cases hfault
            · exact fun front hbegins hne => absurd (List.prefix_nil.mp hbegins) hne
          · rename_i hfault
            refine iff_of_false (fun hmem => ?_) ?_
            · obtain ⟨entry, -, rest, -, hcons⟩ := mem_listEntries.mp hmem
              cases hcons
            · rintro ⟨found, hthere, hlast, -⟩
              obtain rfl := Option.some.inj hthere
              exact hfault (Option.isSome_iff_ne_none.mpr (hlast rfl))
      | cons name names =>
          simp only [listed_cons_iff]
          rw [listNode]
          split
          · rename_i hfault
            refine iff_of_false (by simp) ?_
            rintro ⟨found, hsound, -⟩
            rw [hsound] at hfault
            cases hfault
          · rename_i hfault
            rw [mem_listEntries]
            constructor
            · rintro ⟨entry, hentry, rest, hrest, hcons⟩
              obtain ⟨rfl, rfl⟩ := List.cons.inj hcons
              obtain ⟨found, hlisted⟩ := (ih entry hentry).mp hrest
              exact ⟨found, Option.not_isSome_iff_eq_none.mp hfault, entry.2,
                (Node.lookup_eq_some_iff distinct).mpr hentry, hlisted⟩
            · rintro ⟨found, -, child, hchild, hlisted⟩
              have hentry := (Node.lookup_eq_some_iff distinct).mp hchild
              exact ⟨(name, child), hentry, names, (ih _ hentry).mpr ⟨found, hlisted⟩, rfl⟩

/-- A path is walked by its stem. -/
theorem walk_stem {d : Disk} {path : String} {start location : Location}
    (h : d.walk start (Path.segments path) = .ok location) :
    d.walk start (Path.stem path) = .ok location := by
  obtain ⟨blanks, hsegments, hblanks⟩ := Path.exists_segments_eq_stem path
  rw [hsegments] at h
  obtain ⟨place, hplace, hlast⟩ := walk_append_eq_ok_iff.mp h
  rw [hplace, ← follow_of_walk hlast, follow_of_silent (isSilent_of_forall_eq_empty hblanks)]

theorem walk_down {d : Disk} {location : Location} {top found : Node} {names : Location}
    (htop : d.node? location = some top) (hfound : top.at? names = some found)
    (hnames : ∀ name ∈ names, IsProper name ∧ name.utf8ByteSize ≤ maxName) :
    d.walk location names = .ok (location ++ names) := by
  induction names generalizing location top with
  | nil => rw [walk_nil, List.append_nil]
  | cons name names ih =>
      obtain ⟨child, hchild, hfound⟩ := Option.bind_eq_some_iff.mp hfound
      obtain ⟨hproper, hshort⟩ := hnames name List.mem_cons_self
      have hholds : d.HoldsDirectory location := by
        rw [HoldsDirectory, htop]
        exact Node.isDirectory_of_child? hchild
      have hdown : d.node? (location ++ [name]) = some child := by
        rw [node?_append, htop]
        exact hchild
      rw [walk_cons_of_leads hholds (.down hproper hshort),
        ih hdown hfound fun other hmem => hnames other (List.mem_cons_of_mem name hmem),
        List.append_assoc]
      rfl

theorem lookup_eq_ok {d : Disk} {path : String} {node : Node} :
    d.lookup path = .ok node ↔
      ∃ location, d.locate path = .ok location ∧ d.node? location = some node := by
  unfold lookup
  rw [bind_eq_ok]
  constructor
  · rintro ⟨location, hlocate, h⟩
    split at h
    · rename_i hnode
      obtain rfl := Except.ok.inj h
      exact ⟨location, hlocate, hnode⟩
    · cases h
  · rintro ⟨location, hlocate, hnode⟩
    refine ⟨location, hlocate, ?_⟩
    rw [hnode]

section
variable {d : Disk} {root : String} {top : Node} (hroot : d.lookup root = .ok top)
include hroot

theorem pathFault?_of_lookup : pathFault? root = none := by
  obtain ⟨location, hlocate, -⟩ := lookup_eq_ok.mp hroot
  exact (locate_eq_ok hlocate).1

theorem node?_place_append (names : Location) :
    d.node? (d.place root ++ names) = top.at? names := by
  obtain ⟨location, hlocate, hnode⟩ := lookup_eq_ok.mp hroot
  have htop : d.root.at? location = some top := hnode
  rw [place_of_locate hlocate, node?, Node.at?_append, htop]
  rfl

/-- What there is below a directory is found under the path of that with the
names put after it, and nothing else is. -/
theorem lookup_append_iff (htree : top.IsTree) {names : Location} (hne : names ≠ [])
    (hnames : ∀ name ∈ names, Path.IsName name) {found : Node} :
    d.lookup (Path.append root (Path.ofNames names)) = .ok found ↔
      pathFault? (Path.append root (Path.ofNames names)) = none ∧ top.at? names = some found := by
  constructor
  · intro h
    refine ⟨pathFault?_of_lookup h, ?_⟩
    rw [← node?_place_append hroot, ← d.place_append root hne hnames]
    exact (congrArg _ (List.append_nil _)).symm.trans (node?_place_append h [])
  · rintro ⟨hsound, hfound⟩
    rw [lookup_eq_ok]
    refine ⟨d.place root ++ names, ?_, by rw [node?_place_append hroot, hfound]⟩
    obtain ⟨location, hlocate, hnode⟩ := lookup_eq_ok.mp hroot
    have hdown := walk_down hnode hfound fun name hmem =>
      ⟨(hnames name hmem).proper, ((htree.at? hfound).1 name hmem).short⟩
    have habsolute := Path.not_isAbsolute_ofNames hnames
    rw [locate, hsound, start, Path.isAbsolute_append habsolute, Path.segments_append habsolute,
      Path.segments_ofNames hne hnames, place_of_locate hlocate]
    exact walk_append_eq_ok_iff.mpr ⟨location, walk_stem (locate_eq_ok hlocate).2, hdown⟩

end

end Disk

end SealedModules
