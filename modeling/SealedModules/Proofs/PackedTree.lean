/-
# The pack of a tree

Packing a directory collects the files of its tree under their paths
(`FilesOf`), carries each over as it is to be packed, and writes them down.  All
of this succeeds unless something is too long: the path of a file or a directory,
a file that is to be sealed, or the list of files (`packDirectory_eq_ok_iff`).
Carrying a file over twice is carrying it over once (`carry_carry`).
-/
import SealedModules.Command.Pack
import SealedModules.Proofs.IndexedTree
import SealedModules.Proofs.Wrapping

namespace SealedModules

/-! ## The files of a tree -/

/-- The files of a tree, each under the path that its names make. -/
def FilesOf (tree : Node) (files : Dictionary Bytes) : Prop :=
  ∀ path bytes, files.get? path = some bytes ↔
    ∃ names, path = Path.ofNames names ∧ tree.at? names = some (.file bytes)

theorem FilesOf.unique {tree : Node} {files files' : Dictionary Bytes} (h : FilesOf tree files)
    (h' : FilesOf tree files') : files = files' :=
  Dictionary.ext_get? fun path => Option.ext fun bytes => (h path bytes).trans (h' path bytes).symm

/-- What is wanted of the files of a tree if each is changed in some way. -/
def Node.changed (form : Bytes → Bytes) (tree : Node) (names : Location) : Option Bytes :=
  match tree.at? names with
  | some (.file contents) => some (form contents)
  | _ => none

theorem Node.changed_eq_some_iff {form : Bytes → Bytes} {tree : Node} {names : Location}
    {bytes : Bytes} :
    tree.changed form names = some bytes ↔
      ∃ contents, tree.at? names = some (.file contents) ∧ form contents = bytes := by
  unfold changed
  split
  · rename_i contents hfile
    rw [hfile]
    simp
  · rename_i hnone
    refine iff_of_false nofun ?_
    rintro ⟨contents, hfile, -⟩
    exact hnone contents hfile

theorem FilesOf.map {tree node : Node} {files : Dictionary Bytes} (h : FilesOf tree files)
    {form : Bytes → Bytes}
    (hnode : ∀ names bytes, node.at? names = some (.file bytes) ↔
      tree.changed form names = some bytes) : FilesOf node (files.map form) := by
  intro path bytes
  rw [Dictionary.get?_map, Option.map_eq_some_iff]
  constructor
  · rintro ⟨contents, hfound, hform⟩
    obtain ⟨names, hpath, hfile⟩ := (h path contents).mp hfound
    exact ⟨names, hpath, (hnode names bytes).mpr (Node.changed_eq_some_iff.mpr ⟨_, hfile, hform⟩)⟩
  · rintro ⟨names, hpath, hthere⟩
    obtain ⟨contents, hfile, hform⟩ := Node.changed_eq_some_iff.mp ((hnode names bytes).mp hthere)
    exact ⟨contents, (h path contents).mpr ⟨names, hpath, hfile⟩, hform⟩

theorem FilesOf.mem_map_iff {tree : Node} {files : Dictionary Bytes} (h : FilesOf tree files)
    (form : Bytes → Bytes) (entry : String × Bytes) :
    entry ∈ (files.map form).entries ↔
      ∃ names contents, entry = (Path.ofNames names, form contents) ∧
        tree.at? names = some (.file contents) := by
  constructor
  · intro hmem
    obtain ⟨⟨path, contents⟩, hlisted, rfl⟩ := List.mem_map.mp hmem
    obtain ⟨names, rfl, hfile⟩ := (h _ _).mp (Dictionary.get?_eq_some_iff.mpr hlisted)
    exact ⟨names, contents, rfl, hfile⟩
  · rintro ⟨names, contents, rfl, hfile⟩
    have hfound := (h _ contents).mpr ⟨names, rfl, hfile⟩
    exact List.mem_map.mpr ⟨_, Dictionary.get?_eq_some_iff.mp hfound, rfl⟩

/-! ## Paths that can be opened -/

/-- Every path below a directory can be opened. -/
def Fits (root : String) (tree : Node) : Prop :=
  ∀ names found, names ≠ [] → tree.at? names = some found →
    Disk.pathFault? (Path.append root (Path.ofNames names)) = none

theorem fits_iff {root : String} {tree : Node} (htree : tree.IsTree)
    (hroot : Disk.pathFault? root = none) :
    Fits root tree ↔ ∀ names found, names ≠ [] → tree.at? names = some found →
      (Path.append root (Path.ofNames names)).utf8ByteSize < Disk.maxPath :=
  forall_congr' fun _ => forall_congr' fun _ => forall_congr' fun _ => forall_congr' fun hfound =>
    Disk.pathFault?_append_iff hroot (htree.at? hfound).1

/-- The path of every file of a tree can be opened. -/
def FilesFit (root : String) (tree : Node) : Prop :=
  ∀ names contents, tree.at? names = some (.file contents) →
    Disk.pathFault? (Path.append root (Path.ofNames names)) = none

theorem filesFit_iff {root : String} {tree : Node} (htree : tree.IsTree)
    (hroot : Disk.pathFault? root = none) :
    FilesFit root tree ↔ ∀ names contents, tree.at? names = some (.file contents) →
      (Path.append root (Path.ofNames names)).utf8ByteSize < Disk.maxPath :=
  forall_congr' fun _ => forall_congr' fun _ => forall_congr' fun hfile =>
    Disk.pathFault?_append_iff hroot (htree.at? hfile).1

namespace Command

/-! ## What a file is packed as -/

section
variable (sealer : Sealer) (sealing : Bool)

/-- How a file is packed: as it is, or sealed if that is asked for and it is not
sealed already. -/
def Carried (contents packed : Bytes) : Prop :=
  if sealing = true ∧ sealer.classifyWhole contents ≠ .sealedModule then
    sealer.wrap contents = .ok packed
  else packed = contents

/-- What a file is packed as. -/
def carry (contents : Bytes) : Bytes :=
  if sealing = true ∧ sealer.classifyWhole contents ≠ .sealedModule then
    (sealer.wrap contents).toOption.getD []
  else contents

/-- What can be packed: sealing takes files that are short enough. -/
def Carries (contents : Bytes) : Prop :=
  sealing = true → sealer.classifyWhole contents ≠ .sealedModule → contents.length < UInt32.size

variable {sealer sealing}

theorem carried_carry (hp : sealer.isProtecting = true) {contents : Bytes}
    (h : Carries sealer sealing contents) :
    Carried sealer sealing contents (carry sealer sealing contents) := by
  unfold Carried carry
  split
  · rename_i hseals
    rw [Sealer.wrap_eq_ok_iff.mpr ⟨hp, h hseals.1 hseals.2, rfl⟩]
    rfl
  · rfl

theorem Carried.eq_carry {contents packed : Bytes} (h : Carried sealer sealing contents packed) :
    packed = carry sealer sealing contents := by
  unfold Carried at h
  unfold carry
  split
  · rename_i hseals
    rw [if_pos hseals] at h
    rw [h]
    rfl
  · rename_i hkeeps
    rwa [if_neg hkeeps] at h

/-- With sealing, everything is packed sealed, and what was sealed for it can be
unsealed. -/
theorem Carried.isSealed (hcipher : sealer.cipher.Invertible) {contents packed : Bytes}
    (h : Carried sealer true contents packed) :
    sealer.classifyWhole packed = .sealedModule ∧
      (sealer.classifyWhole contents ≠ .sealedModule → sealer.unwrap packed = .ok contents) := by
  unfold Carried at h
  by_cases hsealed : sealer.classifyWhole contents = .sealedModule
  · rw [if_neg fun hseals => hseals.2 hsealed] at h
    exact ⟨h ▸ hsealed, fun hnot => absurd hsealed hnot⟩
  · rw [if_pos ⟨rfl, hsealed⟩] at h
    have hback := (Sealer.unwrap_eq_ok_iff_wrap hcipher).mpr h
    exact ⟨Sealer.unwrap_isOk_iff.mp ⟨contents, hback⟩, fun _ => hback⟩

theorem carry_carry (hp : sealer.isProtecting = true) (hcipher : sealer.cipher.Invertible)
    {contents : Bytes} (h : Carries sealer sealing contents) :
    carry sealer sealing (carry sealer sealing contents) = carry sealer sealing contents ∧
      Carries sealer sealing (carry sealer sealing contents) := by
  cases sealing with
  | false => exact ⟨if_neg fun hseals => Bool.false_ne_true hseals.1, fun hseals => by cases hseals⟩
  | true =>
      have hsealed := ((carried_carry hp h).isSealed hcipher).1
      exact ⟨if_neg fun hseals => hseals.2 hsealed, fun _ hnot => absurd hsealed hnot⟩

end

theorem prepare_eq_ok (settings : Settings) (sealing : Bool) {files : List (String × Bytes)}
    (h : ∀ file ∈ files, Carries settings.sealingSealer sealing file.2) :
    ∃ count, prepare settings sealing files =
      .ok (files.map fun file => (file.1, carry settings.sealingSealer sealing file.2), count) := by
  cases sealing with
  | false =>
      refine ⟨0, ?_⟩
      have hkept : ∀ file ∈ files,
          (file.1, carry settings.sealingSealer false file.2) = file := by
        intro file _
        rw [carry, if_neg fun hseals => Bool.false_ne_true hseals.1]
      rw [List.map_congr_left hkept, List.map_id']
      rfl
  | true =>
      have hentries : ∀ file ∈ files, sealEntry settings.sealingSealer file =
          .ok ((file.1, carry settings.sealingSealer true file.2),
            decide (settings.sealingSealer.classifyWhole file.2 ≠ .sealedModule)) := by
        intro file hmem
        unfold sealEntry carry
        by_cases hsealed : settings.sealingSealer.classifyWhole file.2 = .sealedModule
        · rw [if_pos hsealed, if_neg fun hseals => hseals.2 hsealed,
            decide_eq_false (not_not_intro hsealed)]
        · rw [if_neg hsealed, if_pos ⟨rfl, hsealed⟩, decide_eq_true hsealed,
            Sealer.wrap_eq_ok_iff.mpr ⟨rfl, h file hmem rfl hsealed, rfl⟩]
          rfl
      rw [prepare, if_pos rfl]
      exact ⟨_, bind_eq_ok.mpr ⟨_, mapM_eq_ok hentries,
        congrArg (fun prepared => Except.ok (prepared, _)) List.map_map⟩⟩

theorem carries_of_prepare {settings : Settings} {sealing : Bool} {files : List (String × Bytes)}
    {prepared : List (String × Bytes) × Nat} (h : prepare settings sealing files = .ok prepared) :
    ∀ file ∈ files, Carries settings.sealingSealer sealing file.2 := by
  intro file hmem hsealing hunsealed
  subst hsealing
  rw [prepare, if_pos rfl] at h
  obtain ⟨entries, hentries, -⟩ := bind_eq_ok.mp h
  obtain ⟨entry, hentry⟩ := exists_ok_of_mapM hentries file hmem
  unfold sealEntry at hentry
  rw [if_neg hunsealed] at hentry
  cases hwrap : settings.sealingSealer.wrap file.2 with
  | error error =>
      rw [hwrap] at hentry
      cases hentry
  | ok bytes => exact (Sealer.wrap_eq_ok_iff.mp hwrap).2.1

/-! ## Packing a tree -/

section
variable {disk : Disk} {root : String} {entries : List (String × Node)}
  (hroot : disk.lookup root = .ok (.directory entries)) (htree : (Node.directory entries).IsTree)
  {index : AssetIndex} (hindex : AssetIndex.ofDirectory disk root = .ok index)
include hroot htree hindex

/-- A directory is collected only if all paths below it can be opened: the
innermost place that can still be told apart would be listed as a file. -/
theorem fits_of_collectDirectory {files : List (String × Bytes)}
    (h : collectDirectory disk root = .ok files) : Fits root (.directory entries) := by
  have hrootSound := Disk.pathFault?_of_lookup hroot
  have hne : root ≠ "" := (Disk.pathFault?_eq_none_iff.mp hrootSound).2.1
  have hcollect : ∃ collected, index.collect disk = .ok collected := by
    unfold collectDirectory at h
    rw [hindex] at h
    cases hcollect : index.collect disk with
    | error fault =>
        simp only [hcollect] at h
        cases h
    | ok collected => exact ⟨collected, rfl⟩
  obtain ⟨collected, hcollected⟩ := hcollect
  have hpackable := AssetIndex.packable_of_collect hindex hcollected
  have hsound : ∀ names found, (Node.directory entries).at? names = some found →
      Disk.pathFault? (Path.descend root names) = none := by
    intro names
    induction names using List.reverseRecOn with
    | nil => exact fun found _ => hrootSound
    | append_singleton front name ih =>
        intro found hfound
        by_contra hfault
        have hplain := (htree.at? hfound).1
        have hnames : ∀ other ∈ front ++ [name], Path.IsName other := fun other hmem =>
          (hplain other hmem).isName
        obtain ⟨above, habove, -⟩ := Option.bind_eq_some_iff.mp
          ((Node.at?_append _ front [name]).symm.trans hfound)
        have hlisted : Disk.Listed root (.directory entries) (front ++ [name]) found := by
          refine ⟨hfound, fun _ => hfault, fun outer hbegins hshorter => ?_⟩
          obtain ⟨rest, rfl⟩ := (List.prefix_concat_iff.mp hbegins).resolve_left hshorter
          exact Disk.sound_descend hne
            (fun other hmem => hnames other (List.mem_append_left [name] hmem)) (ih above habove)
        have hentry := (AssetIndex.get?_ofDirectory_iff hroot htree hindex).mpr
          ⟨_, found, hlisted, rfl⟩
        obtain ⟨bytes, hread⟩ := hpackable.readable _ _ hentry
        obtain ⟨there, hlookup, -⟩ := bind_eq_ok.mp hread
        refine hfault ?_
        rw [Path.descend_eq_append (by simp) hnames]
        exact Disk.pathFault?_of_lookup hlookup
  intro names found hnil hfound
  rw [← Path.descend_eq_append hnil fun name hmem => ((htree.at? hfound).1 name hmem).isName]
  exact hsound names found hfound

variable (hfits : Fits root (.directory entries))
include hfits

theorem collectDirectory_eq_ok :
    ∃ files, collectDirectory disk root = .ok files.entries ∧
      FilesOf (.directory entries) files ∧ files.entries.length = index.size := by
  have hsound : ∀ names bytes, (Node.directory entries).at? names = some (.file bytes) →
      Disk.pathFault? (Path.append root (Path.ofNames names)) = none := by
    exact fun names bytes hfile => hfits names _ (Node.ne_nil_of_file rfl hfile) hfile
  -- what is listed is a file, since the path of a directory would not be too long
  have hreadable : ∀ path file, index.get? path = some (.onDisk file) →
      ∃ bytes, disk.fileBytes file = .ok bytes := by
    intro path file hentry
    obtain ⟨names, found, hlisted, heq⟩ :=
      (AssetIndex.get?_ofDirectory_iff hroot htree hindex).mp hentry
    obtain ⟨-, hfile⟩ := Prod.mk.inj heq
    obtain rfl := AssetEntry.onDisk.inj hfile
    obtain ⟨hne, hplain⟩ := AssetIndex.names_of_listed hroot htree hlisted
    have hnames : ∀ name ∈ names, Path.IsName name := fun name hmem => (hplain name hmem).isName
    have hopens := hfits names found hne hlisted.there
    have hnot : found.isDirectory = false := by
      refine Bool.eq_false_iff.mpr fun hdirectory => hlisted.last hdirectory ?_
      rwa [Path.descend_eq_append hne hnames]
    obtain ⟨bytes, rfl⟩ := (htree.at? hlisted.there).2.exists_file hnot
    exact ⟨bytes, (Disk.fileBytes_append_iff hroot htree hne hnames).mpr
      ⟨hopens, hlisted.there⟩⟩
  have hpackable := AssetIndex.packable_of_directory hindex hreadable
  refine ⟨AssetIndex.contents disk index, ?_, fun path bytes => ?_, List.length_map _⟩
  · unfold collectDirectory
    rw [hindex]
    simp only [hpackable.collect_eq]
  · rw [hpackable.get?_contents]
    exact AssetIndex.contents?_ofDirectory_iff hroot htree hindex hsound

end

section
variable {disk opened : Disk} {output : String} {location : Location}
  (hout : disk.create output = .ok (location, opened)) (hroom : opened.room location = none)
include hout hroom

theorem writePack_of_toBytes {files : List (String × Bytes)} {pack : Bytes}
    (h : Pack.toBytes files = .ok pack) (count : Nat) :
    (writePack disk output files count).outcome = .ok () ∧
      (writePack disk output files count).disk.fileBytes output = .ok pack := by
  obtain ⟨o, hwrite, hext⟩ := Pack.writeTo_of_room_eq_none (o := opened.output location) h hroom
  have hcontents : o.contents = pack := hext.contents_of_contents_eq_nil rfl
  unfold writePack
  simp only [hout, hwrite, hcontents]
  exact ⟨rfl, Disk.fileBytes_store hout pack⟩

omit hroom in
theorem toBytes_of_writePack {files : List (String × Bytes)} {count : Nat}
    (h : (writePack disk output files count).outcome = .ok ()) :
    ∃ pack, Pack.toBytes files = .ok pack := by
  unfold writePack at h
  simp only [hout] at h
  split at h
  · cases h
  · rename_i hwrite
    obtain ⟨pack, hpack, -⟩ := Pack.toBytes_of_writeTo hwrite
    exact ⟨pack, hpack⟩

end

theorem limits_packDirectory {settings : Settings} {root output : String} {sealing : Bool}
    {disk : Disk} : (packDirectory settings root output sealing disk).disk.limits = disk.limits := by
  unfold packDirectory
  split
  · rfl
  · split
    · rfl
    · unfold writePack
      split
      · rfl
      · rename_i hcreate
        obtain ⟨-, rfl⟩ := Disk.create_eq_ok_iff.mp hcreate
        split
        · rfl
        · rfl

/-- Every file of a tree can be packed. -/
def CarriesAll (sealer : Sealer) (sealing : Bool) (tree : Node) : Prop :=
  ∀ names contents, tree.at? names = some (.file contents) → Carries sealer sealing contents

section
variable {sealer : Sealer} {sealing : Bool} {tree : Node} (hp : sealer.isProtecting = true)
  (hcarries : CarriesAll sealer sealing tree)
include hp hcarries

theorem changed_carry_eq_some_iff {names : Location} {bytes : Bytes} :
    tree.changed (carry sealer sealing) names = some bytes ↔
      ∃ contents, tree.at? names = some (.file contents) ∧ Carried sealer sealing contents bytes := by
  rw [Node.changed_eq_some_iff]
  refine exists_congr fun contents => and_congr_right fun hfile => ⟨?_, fun h => h.eq_carry.symm⟩
  rintro rfl
  exact carried_carry hp (hcarries names contents hfile)

theorem map_carry_map_carry (hcipher : sealer.cipher.Invertible) {files : Dictionary Bytes}
    (hfiles : FilesOf tree files) :
    (files.map (carry sealer sealing)).map (carry sealer sealing) =
      files.map (carry sealer sealing) := by
  refine Dictionary.ext_get? fun path => ?_
  rw [Dictionary.get?_map, Dictionary.get?_map]
  cases hfound : files.get? path with
  | none => rfl
  | some contents =>
      obtain ⟨names, -, hfile⟩ := (hfiles path contents).mp hfound
      exact congrArg some (carry_carry hp hcipher (hcarries names contents hfile)).1

end

theorem isDirectory_of_packDirectory {settings : Settings} {root output : String} {sealing : Bool}
    {disk : Disk} (h : (packDirectory settings root output sealing disk).outcome = .ok ()) :
    disk.isDirectory root = true := by
  unfold packDirectory collectDirectory at h
  split at h
  · cases h
  · rename_i hcollect
    split at hcollect
    · cases hcollect
    · rename_i index hindex
      obtain ⟨listed, hlisted, -⟩ := bind_eq_ok.mp hindex
      obtain ⟨node, hlookup, hnode⟩ := bind_eq_ok.mp hlisted
      rw [Disk.isDirectory, hlookup]
      cases node with
      | directory entries => rfl
      | file contents => cases hnode

section
variable {disk opened : Disk} {root output : String} {entries : List (String × Node)}
  {index : AssetIndex} {location : Location} {settings : Settings} {sealing : Bool}
  (hroot : disk.lookup root = .ok (.directory entries)) (htree : (Node.directory entries).IsTree)
  (hindex : AssetIndex.ofDirectory disk root = .ok index)
  (hout : disk.create output = .ok (location, opened)) (hroom : opened.room location = none)
include hroot htree hindex hout hroom

/-- A tree is packed as its files, each carried over. -/
theorem packDirectory_of_tree (hfits : Fits root (.directory entries))
    (hcarries : CarriesAll settings.sealingSealer sealing (.directory entries))
    (hfew : index.size < UInt32.size) :
    ∃ files pack, FilesOf (.directory entries) files ∧ files.entries.length = index.size ∧
      Pack.toBytes (files.map (carry settings.sealingSealer sealing)).entries = .ok pack ∧
      (packDirectory settings root output sealing disk).outcome = .ok () ∧
      (packDirectory settings root output sealing disk).disk.fileBytes output = .ok pack := by
  obtain ⟨files, hcollect, hfiles, hsize⟩ := collectDirectory_eq_ok hroot htree hindex hfits
  have hplace : ∀ file ∈ files.entries, ∃ names, file.1 = Path.ofNames names ∧
      (Node.directory entries).at? names = some (.file file.2) := fun file hmem =>
    (hfiles file.1 file.2).mp (Dictionary.get?_eq_some_iff.mpr hmem)
  have hprepared : ∀ file ∈ files.entries, Carries settings.sealingSealer sealing file.2 := by
    intro file hmem
    obtain ⟨names, -, hfile⟩ := hplace file hmem
    exact hcarries names file.2 hfile
  obtain ⟨count, hprepare⟩ := prepare_eq_ok settings sealing hprepared
  let packed := (files.map (carry settings.sealingSealer sealing)).entries
  have hpaths : ∀ file ∈ packed, file.1.utf8ByteSize < UInt32.size := by
    intro file hmem
    obtain ⟨collected, hcollected, rfl⟩ := List.mem_map.mp hmem
    obtain ⟨names, hpath, hfile⟩ := hplace collected hcollected
    have hne := Node.ne_nil_of_file rfl hfile
    have hshort := (Disk.pathFault?_eq_none_iff.mp (hfits names _ hne hfile)).2.2
    have hrelative : Path.isAbsolute (Path.ofNames names) = false :=
      Path.not_isAbsolute_ofNames fun name hname => ((htree.at? hfile).1 name hname).isName
    rw [Path.append_eq_lead hrelative, String.utf8ByteSize_append, Disk.maxPath] at hshort
    show collected.1.utf8ByteSize < 4294967296
    rw [hpath]
    omega
  have hlength : packed.length < UInt32.size := by
    rwa [show packed.length = index.size from (List.length_map _).trans hsize]
  have hbuild := Pack.toBytes_of_build (Pack.build_eq_ok_iff.mpr ⟨hpaths, hlength, rfl⟩)
  have hpack : packDirectory settings root output sealing disk =
      writePack disk output packed count := by
    unfold packDirectory
    simp only [hcollect, hprepare]
    rfl
  rw [hpack]
  exact ⟨files, _, hfiles, hsize, hbuild, writePack_of_toBytes hout hroom hbuild count⟩

/-- And there is nothing else for which it is not packed than what is too long
or too many. -/
theorem packDirectory_eq_ok_iff :
    (packDirectory settings root output sealing disk).outcome = .ok () ↔
      Fits root (.directory entries) ∧
        CarriesAll settings.sealingSealer sealing (.directory entries) ∧
        index.size < UInt32.size := by
  constructor
  · intro h
    unfold packDirectory at h
    split at h
    · cases h
    · rename_i collected hcollected
      have hfits := fits_of_collectDirectory hroot htree hindex hcollected
      obtain ⟨files, hcollect, hfiles, hsize⟩ := collectDirectory_eq_ok hroot htree hindex hfits
      obtain rfl := Except.ok.inj (hcollect.symm.trans hcollected)
      split at h
      · cases h
      · rename_i prepared count hprepare
        have hcarried := carries_of_prepare hprepare
        obtain ⟨count', hprepare'⟩ := prepare_eq_ok settings sealing hcarried
        obtain ⟨rfl, -⟩ := Prod.mk.inj (Except.ok.inj (hprepare'.symm.trans hprepare))
        obtain ⟨pack, hpack⟩ := toBytes_of_writePack hout h
        obtain ⟨parts, trailer, hbuild, -⟩ := Pack.build_of_toBytes hpack
        have hcount := (Pack.build_eq_ok_iff.mp hbuild).2.1
        rw [List.length_map, hsize] at hcount
        refine ⟨hfits, fun names contents hfile => ?_, hcount⟩
        have hfound := (hfiles _ contents).mpr ⟨names, rfl, hfile⟩
        exact hcarried _ (Dictionary.get?_eq_some_iff.mp hfound)
  · rintro ⟨hfits, hcarries, hfew⟩
    obtain ⟨files, pack, -, -, -, houtcome, -⟩ :=
      packDirectory_of_tree hroot htree hindex hout hroom hfits hcarries hfew
    exact houtcome

end

end Command

end SealedModules
