/-
# Extracting files into a directory

The files of a tree that are put into an empty directory one after the other do
not get into each other's way: in a tree no file lies below another.  What is
there at any time is `Within` the tree, that is, a file where the tree has one,
and a directory where the tree has a file below.  So only directories lead to
the next file (`Within.clear`), and there is nothing but possibly an older file
where it is put.

This carries over to the disk, where the directory itself may have to be made
first (`Offers`), and with it what the next file lies in (`extractEntry_eq_ok`).
-/
import SealedModules.Proofs.Nesting
import SealedModules.Proofs.Unpacking

namespace SealedModules

/-! ## Growing a tree -/

namespace Node

theorem isDirectory_put {location : Location} (hne : location ≠ []) (node new : Node) :
    (node.put location new).isDirectory = true := by
  cases location with
  | nil => exact absurd rfl hne
  | cons name names => rfl

theorem at?_append_of_file {tree : Node} {front back : Location} {contents : Bytes}
    (h : tree.at? front = some (.file contents)) (hback : back ≠ []) :
    tree.at? (front ++ back) = none := by
  obtain ⟨name, names, rfl⟩ := List.exists_cons_of_ne_nil hback
  rw [at?_append, h]
  rfl

/-- Beside a location, what was put there is not seen. -/
theorem at?_put_beside {node new : Node} {location place : Location}
    (hbelow : ¬ location <+: place) (habove : ¬ place <+: location) :
    (node.put location new).at? place = node.at? place := by
  induction location generalizing node place with
  | nil => exact absurd List.nil_prefix hbelow
  | cons name names ih =>
      cases place with
      | nil => exact absurd List.nil_prefix habove
      | cons step steps =>
          rw [put, at?, at?, child?_withChild]
          by_cases hstep : step = name
          · subst hstep
            have hbelow' : ¬ names <+: steps := fun h => hbelow ((List.prefix_cons_inj step).mpr h)
            have habove' : ¬ steps <+: names := fun h => habove ((List.prefix_cons_inj step).mpr h)
            rw [if_pos rfl, Option.bind_some, ih hbelow' habove']
            cases node.child? step with
            | some child => rfl
            | none =>
                cases steps with
                | nil => exact absurd List.nil_prefix habove'
                | cons next rest => rfl
          · rw [if_neg hstep]

theorem mem_setEntry {name : String} {node : Node} {entries : List (String × Node)}
    {entry : String × Node} (h : entry ∈ setEntry name node entries) :
    entry = (name, node) ∨ entry ∈ entries := by
  induction entries with
  | nil => exact .inl (List.mem_singleton.mp h)
  | cons first rest ih =>
      rw [setEntry] at h
      split at h
      · rcases List.mem_cons.mp h with h | h
        · exact .inl h
        · exact .inr (List.mem_cons_of_mem first h)
      · rcases List.mem_cons.mp h with h | h
        · exact .inr (h ▸ List.mem_cons_self)
        · exact (ih h).imp_right (List.mem_cons_of_mem first)

theorem nodup_setEntry {name : String} {node : Node} {entries : List (String × Node)}
    (h : (entries.map (·.1)).Nodup) : ((setEntry name node entries).map (·.1)).Nodup := by
  induction entries with
  | nil => exact List.nodup_singleton name
  | cons first rest ih =>
      obtain ⟨hfirst, hrest⟩ := List.nodup_cons.mp h
      rw [setEntry]
      split
      · rename_i hname
        rw [List.map_cons, List.nodup_cons]
        exact ⟨hname ▸ hfirst, hrest⟩
      · rename_i hname
        rw [List.map_cons, List.nodup_cons]
        refine ⟨fun hmem => ?_, ih hrest⟩
        obtain ⟨entry, hentry, heq⟩ := List.mem_map.mp hmem
        rcases mem_setEntry hentry with rfl | hentry
        · exact hname heq
        · exact hfirst (List.mem_map.mpr ⟨entry, hentry, heq⟩)

theorem IsTree.entries {node : Node} (h : node.IsTree) :
    (∀ entry ∈ node.entries, Path.IsPlain entry.1 ∧ entry.2.IsTree) ∧
      (node.entries.map (·.1)).Nodup := by
  cases h with
  | file contents => exact ⟨List.forall_mem_nil _, List.nodup_nil⟩
  | directory plain distinct below =>
      exact ⟨fun entry hmem => ⟨plain entry hmem, below entry hmem⟩, distinct⟩

theorem IsTree.put {node : Node} (h : node.IsTree) {location : Location}
    (hplain : ∀ name ∈ location, Path.IsPlain name) (contents : Bytes) :
    (node.put location (.file contents)).IsTree := by
  induction location generalizing node with
  | nil => exact .file contents
  | cons name names ih =>
      obtain ⟨hname, hnames⟩ := List.forall_mem_cons.mp hplain
      have hbelow : (((node.child? name).getD .empty).put names (.file contents)).IsTree := by
        refine ih ?_ hnames
        cases hchild : node.child? name with
        | none => exact .directory (List.forall_mem_nil _) List.nodup_nil (List.forall_mem_nil _)
        | some child => exact (h.child hchild).2
      have hall : ∀ entry ∈ setEntry name
          (((node.child? name).getD .empty).put names (.file contents)) node.entries,
          Path.IsPlain entry.1 ∧ entry.2.IsTree := by
        intro entry hmem
        rcases mem_setEntry hmem with rfl | hmem
        · exact ⟨hname, hbelow⟩
        · exact h.entries.1 entry hmem
      exact .directory (fun entry hmem => (hall entry hmem).1) (nodup_setEntry h.entries.2)
        fun entry hmem => (hall entry hmem).2

theorem clear_of_forall {node : Node} {location : Location}
    (h : ∀ front back, location = front ++ back → back ≠ [] → ∀ found,
      node.at? front = some found → found.isDirectory = true) : node.Clear location := by
  induction location generalizing node with
  | nil => trivial
  | cons name names ih =>
      refine ⟨h [] (name :: names) rfl (List.cons_ne_nil name names) node rfl, ?_⟩
      intro child hchild
      refine ih fun front back heq hback found hfound => ?_
      refine h (name :: front) back (by rw [heq]; rfl) hback found ?_
      exact Option.bind_eq_some_iff.mpr ⟨child, hchild, hfound⟩

/-! ### What is within a tree -/

/-- Where there is a file the tree has one, and where there is a directory the
tree has a file below. -/
def Within (node tree : Node) : Prop :=
  ∀ names found, names ≠ [] → node.at? names = some found →
    ∃ rest contents, tree.at? (names ++ rest) = some (.file contents) ∧
      (rest = [] ↔ found.isDirectory = false)

theorem within_empty (tree : Node) : Within .empty tree := by
  intro names found hne hfound
  obtain ⟨name, rest, rfl⟩ := List.exists_cons_of_ne_nil hne
  cases hfound

section
variable {node tree : Node} (h : node.Within tree) {location : Location} {contents : Bytes}
  (hfile : tree.at? location = some (.file contents))
include h hfile

theorem Within.put (bytes : Bytes) : (node.put location (.file bytes)).Within tree := by
  intro place found hne hfound
  by_cases hbelow : location <+: place
  · obtain ⟨rest, rfl⟩ := hbelow
    rw [at?_append, at?_put, Option.bind_some] at hfound
    cases rest with
    | nil =>
        obtain rfl := Option.some.inj hfound
        exact ⟨[], contents, by rwa [List.append_nil, List.append_nil], iff_of_true rfl rfl⟩
    | cons name names => cases hfound
  · by_cases habove : place <+: location
    · obtain ⟨rest, rfl⟩ := habove
      have hrest : rest ≠ [] := by
        rintro rfl
        rw [List.append_nil] at hbelow
        exact hbelow (List.prefix_refl _)
      rw [at?_put_append] at hfound
      obtain rfl := Option.some.inj hfound
      refine ⟨rest, contents, hfile, iff_of_false hrest ?_⟩
      rw [isDirectory_put hrest]
      exact Bool.false_ne_true.symm
    · rw [at?_put_beside hbelow habove] at hfound
      exact h place found hne hfound

theorem Within.clear (hdirectory : node.isDirectory = true) : node.Clear location := by
  refine clear_of_forall fun front back heq hback found hfound => ?_
  by_cases hfront : front = []
  · subst hfront
    obtain rfl := Option.some.inj hfound
    exact hdirectory
  · obtain ⟨rest, other, hthere, hkind⟩ := h front found hfront hfound
    cases hnot : found.isDirectory with
    | true => rfl
    | false =>
        rw [hkind.mpr hnot, List.append_nil] at hthere
        rw [heq, at?_append_of_file hthere hback] at hfile
        cases hfile

theorem Within.exists_file (htree : node.IsTree) (hne : location ≠ []) {found : Node}
    (hfound : node.at? location = some found) : ∃ before, found = .file before := by
  refine (htree.at? hfound).2.exists_file ?_
  obtain ⟨rest, other, hthere, hkind⟩ := h location found hne hfound
  by_cases hrest : rest = []
  · exact hkind.mp hrest
  · rw [at?_append_of_file hfile hrest] at hthere
    cases hthere

theorem Within.leaf?_put (hdirectory : node.isDirectory = true) (bytes : Bytes) (place : Location) :
    (node.put location (.file bytes)).leaf? place =
      if place = location then some (.file bytes) else node.leaf? place := by
  by_cases hbelow : location <+: place
  · obtain ⟨rest, rfl⟩ := hbelow
    rw [leaf?_put_append]
    by_cases hrest : rest = []
    · subst hrest
      rw [if_pos (List.append_nil location)]
      rfl
    · have hnone : node.at? (location ++ rest) = none := by
        by_contra hsome
        obtain ⟨found, hfound⟩ := Option.ne_none_iff_exists'.mp hsome
        obtain ⟨lower, other, hthere, -⟩ := h _ found (by simp [hrest]) hfound
        rw [List.append_assoc, at?_append_of_file hfile (by simp [hrest])] at hthere
        cases hthere
      have hleaf : node.leaf? (location ++ rest) = none := congrArg (Option.filter _) hnone
      obtain ⟨name, names, rfl⟩ := List.exists_cons_of_ne_nil hrest
      rw [if_neg (by simp), hleaf]
      rfl
  · rw [Node.leaf?_put _ (h.clear hfile hdirectory) hbelow, if_neg]
    rintro rfl
    exact hbelow (List.prefix_refl _)

end

/-- What there is of a tree, with other contents, while it is extracted. -/
structure Grown (tree : Node) (want : Location → Option Bytes) (node : Node) : Prop where
  isTree : node.IsTree
  isDirectory : node.isDirectory = true
  within : node.Within tree
  wanted : ∀ place found, node.leaf? place = some found → (want place).map .file = some found

theorem grown_empty (tree : Node) (want : Location → Option Bytes) : Grown tree want .empty := by
  refine ⟨.directory (List.forall_mem_nil _) List.nodup_nil (List.forall_mem_nil _), rfl,
    within_empty tree, fun place found hfound => ?_⟩
  cases place with
  | nil => cases hfound
  | cons name names => cases hfound

theorem Grown.put {tree node : Node} {want : Location → Option Bytes} (h : Grown tree want node)
    {location : Location} (hplain : ∀ name ∈ location, Path.IsPlain name) (hne : location ≠ [])
    {contents : Bytes} (hfile : tree.at? location = some (.file contents)) {bytes : Bytes}
    (hwant : want location = some bytes) : Grown tree want (node.put location (.file bytes)) := by
  refine ⟨h.isTree.put hplain bytes, isDirectory_put hne node _, h.within.put hfile bytes, ?_⟩
  intro place found hfound
  rw [h.within.leaf?_put hfile h.isDirectory] at hfound
  split at hfound
  · rename_i hplace
    rw [hplace, hwant, ← hfound]
    rfl
  · exact h.wanted place found hfound

end Node

/-! ## Extracting -/

namespace Disk

/-- A directory is there at a path, or can be made, and then it holds these
nodes. -/
def Offers (d : Disk) (path : String) (top : Node) : Prop :=
  ∃ made, d.ensurePath path = (.ok (), made) ∧ made.lookup path = .ok top

theorem Offers.of_lookup {d : Disk} {path : String} {top : Node} (h : d.lookup path = .ok top)
    (hdirectory : top.isDirectory = true) : d.Offers path top := by
  cases top with
  | directory entries => exact ⟨d, ensurePath_of_lookup h, h⟩
  | file contents => cases hdirectory

/-- Whether there is an empty directory, or one can be made, can be tried. -/
theorem offers_empty_iff {d : Disk} {path : String} :
    d.Offers path .empty ↔ (d.ensurePath path).1 = .ok () ∧
      ((d.ensurePath path).2.lookup path).toOption.any
        (fun node => node.isDirectory && node.entries.isEmpty) = true := by
  constructor
  · rintro ⟨made, hmade, hlookup⟩
    rw [hmade, hlookup]
    exact ⟨rfl, rfl⟩
  · rintro ⟨hmade, hempty⟩
    refine ⟨_, Prod.ext hmade rfl, ?_⟩
    cases hlookup : (d.ensurePath path).2.lookup path with
    | error fault =>
        rw [hlookup] at hempty
        cases hempty
    | ok node =>
        rw [hlookup] at hempty
        cases node with
        | directory entries =>
            cases entries with
            | nil => rfl
            | cons entry entries => cases hempty
        | file contents => cases hempty

instance (d : Disk) (path : String) : Decidable (d.Offers path .empty) :=
  decidable_of_iff _ offers_empty_iff.symm

theorem Offers.lookup_of_isDirectory {d : Disk} {path : String} {top : Node}
    (h : d.Offers path top) (hdirectory : d.isDirectory path = true) : d.lookup path = .ok top := by
  obtain ⟨made, hmade, hlookup⟩ := h
  rw [isDirectory] at hdirectory
  cases hthere : d.lookup path with
  | error fault =>
      rw [hthere] at hdirectory
      cases hdirectory
  | ok found =>
      rw [hthere] at hdirectory
      cases found with
      | directory entries =>
          rw [ensurePath_of_lookup hthere] at hmade
          obtain rfl := (Prod.mk.inj hmade).2
          rw [← hthere, hlookup]
      | file contents => cases hdirectory

theorem Offers.leaf?_eq {d : Disk} {path : String} {top : Node} (h : d.Offers path top)
    (names : Location) : d.leaf? (d.place path ++ names) = top.leaf? names := by
  obtain ⟨made, hmade, hlookup⟩ := h
  have hconfined := d.confined_ensureNested (Path.nesting path)
  rw [show d.ensureNested (Path.nesting path) = (.ok (), made) from hmade] at hconfined
  rw [← hconfined.leaf _ not_false, ← hconfined.place_eq]
  exact congrArg (Option.filter _) (node?_place_append hlookup names)

theorem lookup_set_append {d : Disk} {path : String} {top : Node} (h : d.lookup path = .ok top)
    {names : Location} {new : Node} (hfree : ¬ d.HoldsDirectory (d.place path ++ names)) :
    (d.set (d.place path ++ names) new).lookup path = .ok (top.put names new) := by
  obtain ⟨location, hlocate, hnode⟩ := lookup_eq_ok.mp h
  obtain ⟨hsound, hwalk⟩ := locate_eq_ok hlocate
  rw [place_of_locate hlocate] at hfree ⊢
  refine lookup_eq_ok.mpr ⟨location, ?_, ?_⟩
  · rw [locate, hsound]
    exact walk_mono (fun place => holdsDirectory_set hfree) hwalk
  · have htop : d.root.at? location = some top := hnode
    rw [node?, set, Node.at?_put_append, htop, Option.getD_some]

end Disk

namespace Command

theorem safeNames_ofNames {names : List String} (hne : names ≠ [])
    (h : ∀ name ∈ names, Path.IsName name) : safeNames (Path.ofNames names) = .ok names := by
  have hsegments := Path.segments_ofNames hne h
  refine safeNames_eq_ok_iff.mpr ⟨Path.not_isAbsolute_ofNames h, ?_, hne, ?_⟩
  · rw [hsegments]
    exact fun hup => (h ".." hup).proper.2.2 rfl
  · rw [hsegments, List.filter_eq_self.mpr]
    exact fun name hmem => decide_eq_true (h name hmem).proper

section
variable {d made : Disk} {target : String} {top : Node}
  (hmade : d.ensurePath target = (.ok (), made)) (hlookup : made.lookup target = .ok top)
include hmade hlookup

/-- A file is extracted where only directories lead and no directory is. -/
theorem extractEntry_eq_ok {names : List String} (hne : names ≠ [])
    (hplain : ∀ name ∈ names, Path.IsPlain name)
    (hsound : Disk.pathFault? (Path.append target (Path.ofNames names)) = none)
    (hclear : top.Clear names)
    (hfile : ∀ found, top.at? names = some found → ∃ before, found = .file before)
    {contents : Bytes} (hroom : made.HasRoom (made.place target ++ names) contents.length) :
    extractEntry d target (Path.ofNames names, contents) =
      (.ok (), made.set (made.place target ++ names) (.file contents)) := by
  obtain ⟨front, last, rfl⟩ := (List.eq_nil_or_concat' names).resolve_left hne
  have hnames : ∀ name ∈ front ++ [last], Path.IsName name := fun name hmem =>
    (hplain name hmem).isName
  obtain ⟨hfront, hlast⟩ := List.forall_mem_append.mp hplain
  have hlast : Path.IsPlain last := hlast last List.mem_cons_self
  have hfrontName : ∀ name ∈ front, Path.IsName name := fun name hmem => (hfront name hmem).isName
  have htarget : target ≠ "" :=
    (Disk.pathFault?_eq_none_iff.mp (Disk.pathFault?_of_lookup hlookup)).2.1
  have hpath : Path.append target (Path.ofNames (front ++ [last])) =
      Path.append (Path.descend target front) last := by
    rw [← Path.descend_eq_append hne hnames]
    exact List.foldl_append
  have houter : Disk.pathFault? (Path.descend target front) = none := by
    refine Disk.sound_descend htarget hnames ?_
    rwa [Path.descend_eq_append hne hnames]
  -- the directories on the way are made, and then the file in the last of them
  obtain ⟨hparents, entries, hthere⟩ :=
    Disk.ensurePath_descend hmade hlookup hfront houter hclear
  have hplace : (made.withDirectory (made.place target ++ front)).place
      (Path.descend target front) = made.place target ++ front :=
    (made.place_withDirectory _ _).trans (made.place_descend target hfrontName)
  have hchild : ∀ child, entries.lookup last = some child → ∃ before, child = .file before := by
    intro child hchild
    rw [Disk.lookup_of_withDirectory hlookup hfrontName hthere] at hchild
    exact hfile child hchild
  rw [hpath] at hsound
  rw [← List.append_assoc, ← Disk.hasRoom_withDirectory_iff, ← hplace] at hroom
  have hwrite := Disk.writeFile_append hthere hlast hsound hchild hroom
  rw [hplace, Disk.set_withDirectory, List.append_assoc] at hwrite
  have hnested : d.ensureParents (Path.append (Path.descend target front) last) =
      (.ok (), made.withDirectory (made.place target ++ front)) := by
    rw [Disk.ensureParents,
      Path.nesting_append (Disk.pathFault?_eq_none_iff.mp houter).2.1 hlast.isName]
    exact hparents
  unfold extractEntry
  simp only [safeNames_ofNames hne hnames, hpath, hnested, hwrite]

end

theorem fits_of_extractEntry {d : Disk} {target : String} {entry : String × Bytes}
    (h : (extractEntry d target entry).1 = .ok ()) {names : List String}
    (hnames : safeNames entry.1 = .ok names) :
    Disk.pathFault? (Path.append target (Path.ofNames names)) = none ∧
      d.HasRoom (d.place target ++ names) entry.2.length := by
  obtain ⟨hne, hproper⟩ := isName_of_safeNames hnames
  have hparents := d.confined_ensureNested
    (Path.nesting (Path.append target (Path.ofNames names))).tail
  unfold extractEntry at h
  simp only [hnames] at h
  split at h
  · cases h
  · rename_i made hmade
    rw [show d.ensureNested _ = _ from hmade] at hparents
    split at h
    · cases h
    · rename_i hwrite
      obtain ⟨location, htarget, hroom⟩ :=
        Disk.writeFile_isOk_iff.mp (congrArg Prod.fst hwrite)
      have htargeted := Disk.target_eq_ok htarget
      refine ⟨htargeted.sound, ?_⟩
      rwa [← d.place_append target hne hproper, ← hparents.place_eq, htargeted.place_eq,
        ← hparents.hasRoom_iff]

theorem fits_of_extractEntries {target : String} {entries : List (String × Bytes)} {d : Disk}
    (h : (extractEntries target entries d).1 = .ok ()) :
    ∀ entry ∈ entries, ∀ names, safeNames entry.1 = .ok names →
      Disk.pathFault? (Path.append target (Path.ofNames names)) = none ∧
        d.HasRoom (d.place target ++ names) entry.2.length := by
  induction entries generalizing d with
  | nil => exact List.forall_mem_nil _
  | cons entry entries ih =>
      have hconfined := confined_extractEntry d target entry
      rw [extractEntries] at h
      split at h
      · cases h
      · rename_i after hfirst
        rw [hfirst] at hconfined
        refine List.forall_mem_cons.mpr ⟨fun names hnames => ?_, fun other hmem names hnames => ?_⟩
        · exact fits_of_extractEntry (congrArg Prod.fst hfirst) hnames
        · have hfits := ih h other hmem names hnames
          rwa [hconfined.place_eq, hconfined.hasRoom_iff] at hfits

/-! ## Extracting a tree -/

/-- An entry that stands for a file of a tree, with the contents that are wanted
there, and room for them below a directory. -/
structure StandsFor (tree : Node) (want : Location → Option Bytes) (target : String) (d : Disk)
    (entry : String × Bytes) (names : Location) : Prop where
  path : entry.1 = Path.ofNames names
  ne_nil : names ≠ []
  there : ∃ contents, tree.at? names = some (.file contents)
  wanted : want names = some entry.2
  sound : Disk.pathFault? (Path.append target (Path.ofNames names)) = none
  room : d.HasRoom (d.place target ++ names) entry.2.length

section
variable {tree : Node} {want : Location → Option Bytes} {target : String} (htree : tree.IsTree)
include htree

/-- An entry is extracted beside those that are there, in the place of the file
it stands for. -/
theorem extractEntry_of_grown {entry : String × Bytes} {names : Location} {d : Disk}
    (h : StandsFor tree want target d entry names) {node : Node}
    (hoffers : d.Offers target node) (hgrown : Node.Grown tree want node) :
    ∃ last, extractEntry d target entry = (.ok (), last) ∧
      last.lookup target = .ok (node.put names (.file entry.2)) ∧
      Node.Grown tree want (node.put names (.file entry.2)) := by
  obtain ⟨path, bytes⟩ := entry
  obtain rfl : path = Path.ofNames names := h.path
  obtain ⟨contents, hthere⟩ := h.there
  obtain ⟨made, hmade, hlookup⟩ := hoffers
  have hconfined := d.confined_ensureNested (Path.nesting target)
  rw [show d.ensureNested _ = _ from hmade] at hconfined
  have hroom := h.room
  rw [← hconfined.place_eq, ← hconfined.hasRoom_iff] at hroom
  have hplain := (htree.at? hthere).1
  have hfile : ∀ found, node.at? names = some found → ∃ before, found = .file before :=
    fun found => hgrown.within.exists_file hthere hgrown.isTree h.ne_nil
  have hfree : ¬ made.HoldsDirectory (made.place target ++ names) := by
    intro hholds
    obtain ⟨found, hfound, hdirectory⟩ := (Option.any_eq_true _ _).mp hholds
    rw [Disk.node?_place_append hlookup] at hfound
    obtain ⟨before, rfl⟩ := hfile found hfound
    cases hdirectory
  exact ⟨_, extractEntry_eq_ok hmade hlookup h.ne_nil hplain h.sound
      (hgrown.within.clear hthere hgrown.isDirectory) hfile hroom,
    Disk.lookup_set_append hlookup hfree, hgrown.put hplain h.ne_nil hthere h.wanted⟩

omit htree in
theorem StandsFor.after {d after : Disk} {entry : String × Bytes} {names : Location}
    {within : Location → Prop} (h : StandsFor tree want target d entry names)
    (hconfined : d.Confined within after) : StandsFor tree want target after entry names := by
  refine ⟨h.path, h.ne_nil, h.there, h.wanted, h.sound, ?_⟩
  rw [hconfined.place_eq, hconfined.hasRoom_iff]
  exact h.room

theorem StandsFor.unique {d d' : Disk} {entry : String × Bytes} {names names' : Location}
    (h : StandsFor tree want target d entry names)
    (h' : StandsFor tree want target d' entry names') : names = names' := by
  obtain ⟨contents, hthere⟩ := h.there
  obtain ⟨contents', hthere'⟩ := h'.there
  refine (Path.ofNames_inj h.ne_nil h'.ne_nil ?_ ?_).mp (h.path.symm.trans h'.path)
  · exact fun name hmem => ((htree.at? hthere).1 name hmem).isName
  · exact fun name hmem => ((htree.at? hthere').1 name hmem).isName

/-- Entries that stand for files of a tree are extracted one after the other,
and none takes away an earlier one. -/
theorem extractEntries_of_grown {entries : List (String × Bytes)} {d : Disk}
    (hentries : ∀ entry ∈ entries, ∃ names, StandsFor tree want target d entry names)
    {node : Node} (hoffers : d.Offers target node) (hgrown : Node.Grown tree want node) :
    ∃ last node', extractEntries target entries d = (.ok (), last) ∧ last.Offers target node' ∧
      (d.lookup target = .ok node ∨ entries ≠ [] → last.lookup target = .ok node') ∧
      Node.Grown tree want node' ∧
      ∀ names, node.leaf? names ≠ none ∨
        (∃ entry ∈ entries, StandsFor tree want target d entry names) →
          node'.leaf? names ≠ none := by
  induction entries generalizing d node with
  | nil =>
      refine ⟨d, node, rfl, hoffers, fun h => h.resolve_right fun hne => hne rfl, hgrown, ?_⟩
      rintro names (hleaf | ⟨entry, hmem, -⟩)
      · exact hleaf
      · cases hmem
  | cons entry entries ih =>
      obtain ⟨hentry, hentries⟩ := List.forall_mem_cons.mp hentries
      obtain ⟨names, hstands⟩ := hentry
      obtain ⟨made, hfirst, hlookup, hgrown'⟩ :=
        extractEntry_of_grown htree hstands hoffers hgrown
      have hconfined := confined_extractEntry d target entry
      rw [hfirst] at hconfined
      obtain ⟨last, node', hrest, hoffers', hlast, hgrownLast, hkept⟩ :=
        ih (fun other hmem => (hentries other hmem).imp fun _ h => h.after hconfined)
          (.of_lookup hlookup hgrown'.isDirectory) hgrown'
      refine ⟨last, node', ?_, hoffers', fun _ => hlast (.inl hlookup), hgrownLast, ?_⟩
      · rw [extractEntries, hfirst]
        exact hrest
      · intro place h
        refine hkept place ?_
        obtain ⟨contents, hthere⟩ := hstands.there
        rw [hgrown.within.leaf?_put hthere hgrown.isDirectory]
        by_cases hplace : place = names
        · rw [if_pos hplace]
          exact .inl (Option.some_ne_none _)
        · rw [if_neg hplace]
          refine h.imp_right ?_
          rintro ⟨other, hmem, hother⟩
          rcases List.mem_cons.mp hmem with rfl | hmem
          · exact absurd (hother.unique htree hstands) hplace
          · exact ⟨other, hmem, hother.after hconfined⟩

end

theorem unpackFile_eq {disk : Disk} {path : String} {pack : Bytes}
    {entries : List (String × Bytes)} (hpack : disk.fileBytes path = .ok pack)
    (hread : Pack.read pack = .ok entries) (target : String) :
    (unpackFile path (some target) false disk).outcome = (extractEntries target entries disk).1 ∧
      (unpackFile path (some target) false disk).disk = (extractEntries target entries disk).2 := by
  unfold unpackFile
  simp only [hpack, hread, Bool.false_eq_true, if_false]
  split
  · rename_i hresult
    rw [hresult]
    exact ⟨rfl, rfl⟩
  · rename_i hresult
    rw [hresult]
    exact ⟨rfl, rfl⟩

end Command

end SealedModules
