/-
# The index of a directory tree

The index of a directory holds, under the names of its files, the paths that
these are read at (`get?_ofDirectory_iff`); no two files fall together, since
names without slashes are told apart in a path and without backslashes are not
respelled.  So what the index serves is what the tree holds
(`contents?_ofDirectory_iff`).
-/
import SealedModules.Proofs.PackedIndex
import SealedModules.Proofs.Trees

namespace SealedModules

theorem AssetPath.normalize_ofNames {names : List String} (hne : names ≠ [])
    (h : ∀ name ∈ names, Path.IsPiece name) :
    normalize (Path.ofNames names) = Path.ofNames names := by
  have hnames : ∀ name ∈ names, Path.IsName name := fun name hmem => (h name hmem).isName
  have hsegments := Path.segments_ofNames hne hnames
  refine normalize_of_isNormal ⟨Path.no_backslash_ofNames h, ?_, fun hlast => ?_⟩
  · rintro ⟨rest, hrest⟩
    have hdot : "." ∈ names := by
      rw [← hsegments, Path.segments, ← hrest]
      exact (congrArg (_ ∈ List.map String.ofList ·) (Text.split_append '/' ['.'] rest)).mpr
        List.mem_cons_self
    exact (hnames "." hdot).proper.2.1 rfl
  · obtain ⟨front, -, hfront⟩ := Path.exists_segments_of_slash hlast
    have hempty : "" ∈ names := by
      rw [← hsegments, hfront]
      exact List.mem_append_right front List.mem_cons_self
    exact (hnames "" hempty).proper.1 rfl

/-! ## Reading the files of a tree -/

namespace Disk

variable {disk : Disk} {root : String} {top : Node} (hroot : disk.lookup root = .ok top)
  (htree : top.IsTree)
include hroot htree

theorem fileBytes_append_iff {names : Location} (hne : names ≠ [])
    (hnames : ∀ name ∈ names, Path.IsName name) {bytes : Bytes} :
    disk.fileBytes (Path.append root (Path.ofNames names)) = .ok bytes ↔
      pathFault? (Path.append root (Path.ofNames names)) = none ∧
        top.at? names = some (.file bytes) := by
  rw [← lookup_append_iff hroot htree hne hnames, fileBytes, bind_eq_ok]
  constructor
  · rintro ⟨node, hlookup, h⟩
    have hnode := ((lookup_append_iff hroot htree hne hnames).mp hlookup).2
    cases (htree.at? hnode).2 with
    | file contents =>
        obtain rfl := Except.ok.inj h
        exact hlookup
    | directory => cases h
  · intro hlookup
    exact ⟨_, hlookup, rfl⟩

end Disk

namespace AssetIndex

theorem exists_get?_ofEntries {entries : List (String × AssetEntry)} {entry : String × AssetEntry}
    (h : entry ∈ entries) :
    ∃ value, (ofEntries entries).get? (AssetPath.normalize entry.1) = some value := by
  have hmem : (AssetPath.normalize entry.1, entry.2) ∈
      entries.map fun entry => (AssetPath.normalize entry.1, entry.2) :=
    List.mem_map.mpr ⟨entry, h, rfl⟩
  have hfound := Dictionary.exists_get?_ofList hmem
  exact hfound

/-- What an index of a directory is given for a file. -/
def fileEntry (root : String) (names : Location) : String × AssetEntry :=
  (Path.ofNames names, .onDisk (Path.append root (Path.ofNames names)))

section
variable {disk : Disk} {root : String} {entries : List (String × Node)}
  (hroot : disk.lookup root = .ok (.directory entries)) (htree : (Node.directory entries).IsTree)
include hroot htree

omit htree in
theorem exists_ofDirectory : ∃ index, ofDirectory disk root = .ok index := by
  refine ⟨_, bind_eq_ok.mpr ⟨Disk.listEntries root entries, ?_, rfl⟩⟩
  rw [Disk.listFiles, hroot]
  rfl

theorem mem_listEntries_iff {names : Location} :
    names ∈ Disk.listEntries root entries ↔
      ∃ found, Disk.Listed root (.directory entries) names found := by
  have hsound := Disk.pathFault?_of_lookup hroot
  have hlist : Disk.listNode root (.directory entries) = Disk.listEntries root entries := by
    rw [Disk.listNode, hsound]
    rfl
  rw [← hlist, Disk.mem_listNode_iff htree]

theorem names_of_listed {names : Location} {found : Node}
    (h : Disk.Listed root (.directory entries) names found) :
    names ≠ [] ∧ ∀ name ∈ names, Path.IsPlain name := by
  refine ⟨?_, (htree.at? h.there).1⟩
  rintro rfl
  obtain rfl := Option.some.inj h.there
  exact h.last rfl (Disk.pathFault?_of_lookup hroot)

/-- The index holds the path that a listed place is read at, under the names of
the place. -/
theorem get?_ofDirectory_iff {index : AssetIndex} (h : ofDirectory disk root = .ok index)
    {path : String} {entry : AssetEntry} :
    index.get? path = some entry ↔
      ∃ names found, Disk.Listed root (.directory entries) names found ∧
        (path, entry) = fileEntry root names := by
  obtain ⟨files, hfiles, h⟩ := bind_eq_ok.mp h
  obtain rfl := Except.ok.inj h
  rw [Disk.listFiles, hroot] at hfiles
  obtain rfl := Except.ok.inj hfiles
  have hspelled : ∀ names found, Disk.Listed root (.directory entries) names found →
      AssetPath.normalize (Path.ofNames names) = Path.ofNames names := by
    intro names found hlisted
    obtain ⟨hne, hplain⟩ := names_of_listed hroot htree hlisted
    exact AssetPath.normalize_ofNames hne fun name hmem => (hplain name hmem).toIsPiece
  have hfound : ∀ path entry,
      (ofEntries ((Disk.listEntries root entries).map (fileEntry root))).get? path = some entry →
        ∃ names found, Disk.Listed root (.directory entries) names found ∧
          (path, entry) = fileEntry root names := by
    intro path entry hentry
    obtain ⟨spelled, hmem, heq⟩ := List.mem_map.mp (Dictionary.mem_of_get?_ofList hentry)
    obtain ⟨names, hnames, rfl⟩ := List.mem_map.mp hmem
    obtain ⟨found, hlisted⟩ := (mem_listEntries_iff hroot htree).mp hnames
    refine ⟨names, found, hlisted, ?_⟩
    rw [← heq, fileEntry, hspelled names found hlisted]
  refine ⟨hfound path entry, ?_⟩
  rintro ⟨names, found, hlisted, heq⟩
  obtain ⟨rfl, rfl⟩ := Prod.mk.inj heq
  have hmem : fileEntry root names ∈ (Disk.listEntries root entries).map (fileEntry root) :=
    List.mem_map_of_mem ((mem_listEntries_iff hroot htree).mpr ⟨found, hlisted⟩)
  obtain ⟨value, hvalue⟩ := exists_get?_ofEntries hmem
  rw [fileEntry, hspelled names found hlisted] at hvalue
  -- whatever is found under the path was listed, and for the same path
  obtain ⟨names', -, -, heq'⟩ := hfound _ value hvalue
  obtain ⟨hpath, rfl⟩ := Prod.mk.inj heq'
  rw [hpath]
  rwa [hpath] at hvalue

theorem get?_ofNames_iff {index : AssetIndex} (h : ofDirectory disk root = .ok index)
    {names : Location} (hne : names ≠ []) (hnames : ∀ name ∈ names, Path.IsName name)
    {entry : AssetEntry} :
    index.get? (Path.ofNames names) = some entry ↔
      (∃ found, Disk.Listed root (.directory entries) names found) ∧
        entry = .onDisk (Path.append root (Path.ofNames names)) := by
  rw [get?_ofDirectory_iff hroot htree h]
  constructor
  · rintro ⟨names', found, hlisted, heq⟩
    obtain ⟨hne', hplain⟩ := names_of_listed hroot htree hlisted
    obtain ⟨hsame, rfl⟩ := Prod.mk.inj heq
    obtain rfl := (Path.ofNames_inj hne hne' hnames fun name hmem => (hplain name hmem).isName).mp
      hsame
    exact ⟨⟨found, hlisted⟩, rfl⟩
  · rintro ⟨⟨found, hlisted⟩, rfl⟩
    exact ⟨names, found, hlisted, rfl⟩

omit hroot htree in
theorem packable_of_collect {index : AssetIndex} (h : ofDirectory disk root = .ok index)
    {files : List (String × Bytes)} (hfiles : index.collect disk = .ok files) :
    Packable disk index := by
  refine packable_of_directory h fun path file hentry => ?_
  obtain ⟨collected, hcollected⟩ :=
    exists_ok_of_mapM hfiles _ (Dictionary.get?_eq_some_iff.mp hentry)
  cases hbytes : disk.fileBytes file with
  | ok bytes => exact ⟨bytes, rfl⟩
  | error fault =>
      rw [entryBytes, hbytes] at hcollected
      cases hcollected

theorem listed_of_file {names : Location} {bytes : Bytes}
    (hfile : (Node.directory entries).at? names = some (.file bytes))
    (hsound : Disk.pathFault? (Path.append root (Path.ofNames names)) = none) :
    names ≠ [] ∧ Disk.Listed root (.directory entries) names (.file bytes) := by
  have hne := Node.ne_nil_of_file rfl hfile
  have hnames : ∀ name ∈ names, Path.IsName name := fun name hmem =>
    ((htree.at? hfile).1 name hmem).isName
  refine ⟨hne, hfile, nofun, ?_⟩
  rintro front ⟨back, rfl⟩ -
  rw [← Path.descend_eq_append hne hnames] at hsound
  exact Disk.sound_descend (Disk.pathFault?_eq_none_iff.mp (Disk.pathFault?_of_lookup hroot)).2.1
    hnames hsound

/-- What the index of a tree holds are the files, if their paths are not too
long. -/
theorem contents?_ofDirectory_iff {index : AssetIndex} (h : ofDirectory disk root = .ok index)
    (hsound : ∀ names bytes, (Node.directory entries).at? names = some (.file bytes) →
      Disk.pathFault? (Path.append root (Path.ofNames names)) = none) {path : String}
    {bytes : Bytes} :
    index.contents? disk path = some bytes ↔
      ∃ names, path = Path.ofNames names ∧
        (Node.directory entries).at? names = some (.file bytes) := by
  rw [contents?, Option.bind_eq_some_iff]
  constructor
  · rintro ⟨entry, hentry, hbytes⟩
    obtain ⟨names, found, hlisted, heq⟩ := (get?_ofDirectory_iff hroot htree h).mp hentry
    obtain ⟨rfl, rfl⟩ := Prod.mk.inj heq
    obtain ⟨hne, hplain⟩ := names_of_listed hroot htree hlisted
    rw [entryBytes] at hbytes
    cases hread : disk.fileBytes (Path.append root (Path.ofNames names)) with
    | error fault =>
        rw [hread] at hbytes
        cases hbytes
    | ok found =>
        rw [hread] at hbytes
        obtain rfl := Option.some.inj hbytes
        exact ⟨names, rfl, ((Disk.fileBytes_append_iff hroot htree hne fun name hmem =>
          (hplain name hmem).isName).mp hread).2⟩
  · rintro ⟨names, rfl, hfile⟩
    have hopens := hsound names bytes hfile
    obtain ⟨hne, hlisted⟩ := listed_of_file hroot htree hfile hopens
    refine ⟨_, (get?_ofDirectory_iff hroot htree h).mpr ⟨names, _, hlisted, rfl⟩, ?_⟩
    have hread := (Disk.fileBytes_append_iff hroot htree hne fun name hmem =>
      ((htree.at? hfile).1 name hmem).isName).mpr ⟨hopens, hfile⟩
    exact congrArg Except.toOption hread

theorem contents?_ofNames_iff {index : AssetIndex} (h : ofDirectory disk root = .ok index)
    (hsound : ∀ names bytes, (Node.directory entries).at? names = some (.file bytes) →
      Disk.pathFault? (Path.append root (Path.ofNames names)) = none) {names : Location}
    (hne : names ≠ []) (hnames : ∀ name ∈ names, Path.IsName name) {bytes : Bytes} :
    index.contents? disk (Path.ofNames names) = some bytes ↔
      (Node.directory entries).at? names = some (.file bytes) := by
  rw [contents?_ofDirectory_iff hroot htree h hsound]
  constructor
  · rintro ⟨names', hsame, hfile⟩
    obtain ⟨hne', -⟩ := listed_of_file hroot htree hfile (hsound names' bytes hfile)
    have hnames' : ∀ name ∈ names', Path.IsName name := fun name hmem =>
      ((htree.at? hfile).1 name hmem).isName
    rwa [(Path.ofNames_inj hne hne' hnames hnames').mp hsame]
  · intro hfile
    exact ⟨names, rfl, hfile⟩

end

end AssetIndex

end SealedModules
