/-
# Packing a directory and extracting the pack

The two commands meet at the files of a tree, carried over.  The pack of the tree
holds these and nothing else, and extracting it makes a tree that has the same
files (`Restored`): none of them gets into another's way, and all of their paths
are accepted.  So packing the second tree collects what was extracted, and since
that is carried over as it is, the pack is the same (`packDirectory_again`).
-/
import SealedModules.Proofs.Extracting
import SealedModules.Proofs.PackedTree

namespace SealedModules

/-! ## What is extracted -/

/-- What there is after the files of a tree, each changed in some way, were
extracted into an empty directory. -/
structure Extracted (tree : Node) (form : Bytes → Bytes) (target : String) (before after : Disk)
    (node : Node) : Prop where
  offers : after.Offers target node
  isDirectory_iff : after.isDirectory target = true ↔
    before.isDirectory target = true ∨ ∃ names contents, tree.at? names = some (.file contents)
  grown : Node.Grown tree (tree.changed form) node
  leaf?_eq : ∀ names, node.leaf? names = (tree.changed form names).map .file

/-- Below a directory there is room for the files of a tree, each changed in some
way. -/
def Disk.Houses (d : Disk) (target : String) (tree : Node) (form : Bytes → Bytes) : Prop :=
  ∀ names contents, tree.at? names = some (.file contents) →
    d.HasRoom (d.place target ++ names) (form contents).length

namespace Command

section
variable {tree : Node} (htree : tree.IsTree) (htop : tree.isDirectory = true)
  {files : Dictionary Bytes} (hfiles : FilesOf tree files) (form : Bytes → Bytes) {target : String}
  {disk : Disk} (hoffers : disk.Offers target .empty)
include htree htop hfiles hoffers

/-- The files of a tree, changed in some way, are extracted. -/
theorem exists_extracted (hfit : FilesFit target tree) (hroom : disk.Houses target tree form) :
    ∃ last node, extractEntries target (files.map form).entries disk = (.ok (), last) ∧
      Extracted tree form target disk last node := by
  have hmem := hfiles.mem_map_iff form
  have hstands : ∀ names contents, tree.at? names = some (.file contents) →
      StandsFor tree (tree.changed form) target disk (Path.ofNames names, form contents) names :=
    fun names contents hfile => ⟨rfl, Node.ne_nil_of_file htop hfile, ⟨contents, hfile⟩,
      Node.changed_eq_some_iff.mpr ⟨contents, hfile, rfl⟩, hfit names contents hfile,
      hroom names contents hfile⟩
  have hentries : ∀ entry ∈ (files.map form).entries,
      ∃ names, StandsFor tree (tree.changed form) target disk entry names := by
    intro entry hentry
    obtain ⟨names, contents, rfl, hfile⟩ := (hmem _).mp hentry
    exact ⟨names, hstands names contents hfile⟩
  have hany : (files.map form).entries ≠ [] ↔
      ∃ names contents, tree.at? names = some (.file contents) := by
    constructor
    · intro hne
      obtain ⟨entry, entries, hcons⟩ := List.exists_cons_of_ne_nil hne
      obtain ⟨names, contents, -, hfile⟩ := (hmem _).mp (hcons ▸ List.mem_cons_self)
      exact ⟨names, contents, hfile⟩
    · rintro ⟨names, contents, hfile⟩ hnil
      exact List.not_mem_nil (hnil ▸ (hmem _).mpr ⟨names, contents, rfl, hfile⟩)
  obtain ⟨last, node, hextract, hlast, hlookup, hgrown, hkept⟩ :=
    extractEntries_of_grown htree hentries hoffers (Node.grown_empty tree _)
  refine ⟨last, node, hextract, hlast, ⟨fun hdirectory => ?_, fun h => ?_⟩, hgrown, fun names => ?_⟩
  · by_cases hnil : (files.map form).entries = []
    · rw [hnil] at hextract
      rw [(Prod.mk.inj hextract).2]
      exact .inl hdirectory
    · exact .inr (hany.mp hnil)
  · have hthere := hlookup (h.imp hoffers.lookup_of_isDirectory hany.mpr)
    rw [Disk.isDirectory, hthere]
    exact hgrown.isDirectory
  · cases hleaf : node.leaf? names with
    | some found => exact (hgrown.wanted names found hleaf).symm
    | none =>
        refine (Option.map_eq_none_iff.mpr (Option.eq_none_iff_forall_ne_some.mpr ?_)).symm
        intro bytes hbytes
        obtain ⟨contents, hfile, -⟩ := Node.changed_eq_some_iff.mp hbytes
        have hentry := (hmem _).mpr ⟨names, contents, rfl, hfile⟩
        exact hkept names (.inr ⟨_, hentry, hstands names contents hfile⟩) hleaf

/-- And only a path that is too long or a lack of room keeps them from being
extracted. -/
theorem extractEntries_eq_ok_iff :
    (extractEntries target (files.map form).entries disk).1 = .ok () ↔
      FilesFit target tree ∧ disk.Houses target tree form := by
  constructor
  · intro h
    have hfits : ∀ names contents, tree.at? names = some (.file contents) →
        Disk.pathFault? (Path.append target (Path.ofNames names)) = none ∧
          disk.HasRoom (disk.place target ++ names) (form contents).length := by
      intro names contents hfile
      have hmem := (hfiles.mem_map_iff form _).mpr ⟨names, contents, rfl, hfile⟩
      refine fits_of_extractEntries h _ hmem names ?_
      exact safeNames_ofNames (Node.ne_nil_of_file htop hfile) fun name hname =>
        ((htree.at? hfile).1 name hname).isName
    exact ⟨fun names contents hfile => (hfits names contents hfile).1,
      fun names contents hfile => (hfits names contents hfile).2⟩
  · rintro ⟨hfit, hroom⟩
    obtain ⟨last, node, hextract, -⟩ := exists_extracted htree htop hfiles form hoffers hfit hroom
    rw [hextract]

end

end Command

namespace Extracted

variable {tree : Node} {form : Bytes → Bytes} {target : String} {before after : Disk} {node : Node}
  (h : Extracted tree form target before after node)
include h

theorem at?_eq_some_iff (names : Location) (bytes : Bytes) :
    node.at? names = some (.file bytes) ↔ tree.changed form names = some bytes := by
  rw [← Node.leaf?_eq_some_file_iff, h.leaf?_eq, Option.map_eq_some_iff]
  simp only [Node.file.injEq, exists_eq_right]

theorem fits (htree : tree.IsTree) (hfit : FilesFit target tree) : Fits target node := by
  intro names found hnames hfound
  obtain ⟨made, -, hlookup⟩ := h.offers
  have htarget := Disk.pathFault?_eq_none_iff.mp (Disk.pathFault?_of_lookup hlookup)
  obtain ⟨rest, contents, hfile, -⟩ := h.grown.within names found hnames hfound
  have hplain : ∀ name ∈ names ++ rest, Path.IsName name := fun name hmem =>
    ((htree.at? hfile).1 name hmem).isName
  have hbelow := hfit (names ++ rest) contents hfile
  rw [← Path.descend_eq_append (List.append_ne_nil_of_left_ne_nil hnames rest) hplain] at hbelow
  rw [← Path.descend_eq_append hnames fun name hmem => hplain name (List.mem_append_left rest hmem)]
  exact Disk.sound_descend htarget.2.1 hplain hbelow

end Extracted

/-! ## Spelling a path longer -/

namespace Path

/-- A path with segments behind it that say nothing. -/
def dotted (base : String) : Nat → String
  | 0 => base
  | n + 1 => dotted base n ++ "/."

theorem segments_dotted (base : String) (n : Nat) :
    segments (dotted base n) = segments base ++ List.replicate n "." := by
  induction n with
  | zero => exact (List.append_nil _).symm
  | succ n ih =>
      have hstep : segments (dotted base n ++ "/.") = segments (dotted base n) ++ ["."] := by
        rw [segments, String.toList_append]
        exact (congrArg _ (Text.split_append '/' (dotted base n).toList ['.'])).trans
          List.map_append
      rw [dotted, hstep, ih, List.append_assoc, List.replicate_succ']

theorem utf8ByteSize_dotted (base : String) (n : Nat) :
    (dotted base n).utf8ByteSize = base.utf8ByteSize + 2 * n := by
  induction n with
  | zero => rfl
  | succ n ih =>
      rw [dotted, String.utf8ByteSize_append, ih, show "/.".utf8ByteSize = 2 by decide +kernel]
      omega

theorem toList_dotted (base : String) (n : Nat) :
    ∃ dots, (dotted base n).toList = base.toList ++ dots ∧ ∀ c ∈ dots, c = '/' ∨ c = '.' := by
  induction n with
  | zero => exact ⟨[], (List.append_nil _).symm, List.forall_mem_nil _⟩
  | succ n ih =>
      obtain ⟨dots, hdots, hall⟩ := ih
      refine ⟨dots ++ ['/', '.'], ?_, List.forall_mem_append.mpr ⟨hall, by simp⟩⟩
      rw [dotted, String.toList_append, hdots, List.append_assoc]
      rfl

end Path

theorem Disk.lookup_dotted {d : Disk} {path : String} {entries : List (String × Node)}
    (h : d.lookup path = .ok (.directory entries)) {n : Nat}
    (hsize : path.utf8ByteSize + 2 * n < maxPath) :
    d.lookup (Path.dotted path n) = .ok (.directory entries) := by
  obtain ⟨location, hlocate, hnode⟩ := lookup_eq_ok.mp h
  obtain ⟨hsound, hwalk⟩ := locate_eq_ok hlocate
  obtain ⟨hnul, hne, -⟩ := pathFault?_eq_none_iff.mp hsound
  obtain ⟨dots, hdots, hall⟩ := Path.toList_dotted path n
  obtain ⟨first, rest, hfirst⟩ :=
    List.exists_cons_of_ne_nil fun hnil => hne (String.toList_eq_nil_iff.mp hnil)
  have hstart : d.start (Path.dotted path n) = d.start path := by
    rw [start, start, Path.isAbsolute, Path.isAbsolute, hdots, hfirst]
    rfl
  have hsound' : pathFault? (Path.dotted path n) = none := by
    refine pathFault?_eq_none_iff.mpr ⟨?_, fun hempty => ?_, ?_⟩
    · rw [hdots, List.mem_append]
      refine not_or_intro hnul fun hmem => ?_
      exact absurd (hall _ hmem) (by decide)
    · rw [hempty, hfirst] at hdots
      cases hdots
    · rwa [Path.utf8ByteSize_dotted]
  refine lookup_eq_ok.mpr ⟨location, ?_, hnode⟩
  rw [locate, hsound', hstart, Path.segments_dotted]
  refine (walk_append_silent (fun segment hmem => ?_) (holdsDirectory_of_node? hnode)).mpr hwalk
  rw [List.eq_of_mem_replicate hmem]
  rfl

namespace Command

/-! ## There and back -/

/-- The files of a tree, each carried over, are what there is below a
directory. -/
structure Restored (sealer : Sealer) (sealing : Bool) (tree : Node) (disk : Disk)
    (target : String) : Prop where
  leaf : ∀ names found, disk.leaf? (disk.place target ++ names) = some found ↔
    ∃ contents carried, tree.at? names = some (.file contents) ∧
      Carried sealer sealing contents carried ∧ found = .file carried
  read : ∀ names contents, tree.at? names = some (.file contents) →
    ∃ carried, Carried sealer sealing contents carried ∧
      disk.fileBytes (Path.append target (Path.ofNames names)) = .ok carried

theorem restored_of_extracted {sealer : Sealer} {sealing : Bool} {tree : Node}
    (hp : sealer.isProtecting = true) (hcarries : CarriesAll sealer sealing tree)
    (htree : tree.IsTree) (htop : tree.isDirectory = true) {target : String}
    (hfit : FilesFit target tree) {before after : Disk} {node : Node}
    (h : Extracted tree (carry sealer sealing) target before after node) :
    Restored sealer sealing tree after target := by
  constructor
  · intro names found
    rw [h.offers.leaf?_eq, h.leaf?_eq, Option.map_eq_some_iff]
    simp only [changed_carry_eq_some_iff hp hcarries]
    constructor
    · rintro ⟨carried, ⟨contents, hfile, hcarried⟩, rfl⟩
      exact ⟨contents, carried, hfile, hcarried, rfl⟩
    · rintro ⟨contents, carried, hfile, hcarried, rfl⟩
      exact ⟨carried, ⟨contents, hfile, hcarried⟩, rfl⟩
  · intro names contents hfile
    have hcarried := carried_carry hp (hcarries names contents hfile)
    have hthere := (h.at?_eq_some_iff names _).mpr
      ((changed_carry_eq_some_iff hp hcarries).mpr ⟨contents, hfile, hcarried⟩)
    have hlookup := h.offers.lookup_of_isDirectory
      (h.isDirectory_iff.mpr (.inr ⟨names, contents, hfile⟩))
    have hnames : ∀ name ∈ names, Path.IsName name := fun name hmem =>
      ((htree.at? hfile).1 name hmem).isName
    refine ⟨_, hcarried, ?_⟩
    exact (Disk.fileBytes_append_iff hlookup h.grown.isTree (Node.ne_nil_of_file htop hfile)
      hnames).mpr ⟨hfit names contents hfile, hthere⟩

/-- What the files of a tree were extracted to is packed as they were, if it is
there. -/
theorem packDirectory_again {settings : Settings} {sealing : Bool} {tree : Node}
    (htree : tree.IsTree) {files : Dictionary Bytes} (hfiles : FilesOf tree files)
    (hcarries : CarriesAll settings.sealingSealer sealing tree)
    (hfew : files.entries.length < UInt32.size) {pack : Bytes}
    (hpack : Pack.toBytes (files.map (carry settings.sealingSealer sealing)).entries = .ok pack)
    {target : String} (hfit : FilesFit target tree) {before after opened : Disk} {node : Node}
    (h : Extracted tree (carry settings.sealingSealer sealing) target before after node)
    (hthere : after.isDirectory target = true) {output : String} {location : Location}
    (hout : after.create output = .ok (location, opened)) (hroom : opened.room location = none) :
    (packDirectory settings target output sealing after).outcome = .ok () ∧
      (packDirectory settings target output sealing after).disk.fileBytes output = .ok pack := by
  have hp : settings.sealingSealer.isProtecting = true := rfl
  have hcipher : settings.sealingSealer.cipher.Invertible := Substitution.invertible_ofKey _
  have hroot := h.offers.lookup_of_isDirectory hthere
  have hsame := hfiles.map h.at?_eq_some_iff
  have hcarries' : CarriesAll settings.sealingSealer sealing node := by
    intro names bytes hfile
    obtain ⟨contents, hthere, rfl⟩ :=
      Node.changed_eq_some_iff.mp ((h.at?_eq_some_iff names bytes).mp hfile)
    exact (carry_carry hp hcipher (hcarries names contents hthere)).2
  cases node with
  | file contents => exact absurd h.grown.isDirectory Bool.false_ne_true
  | directory entries =>
      have hfits := h.fits htree hfit
      obtain ⟨index, hindex⟩ := AssetIndex.exists_ofDirectory hroot
      have hfew' : index.size < UInt32.size := by
        obtain ⟨found, -, hfound, hsize⟩ :=
          collectDirectory_eq_ok hroot h.grown.isTree hindex hfits
        obtain rfl := hfound.unique hsame
        rw [← hsize]
        exact (List.length_map _).trans_lt hfew
      obtain ⟨files', pack', hfiles', -, hpack', houtcome, hbytes⟩ :=
        packDirectory_of_tree hroot h.grown.isTree hindex hout hroom hfits hcarries' hfew'
      obtain rfl := hfiles'.unique hsame
      rw [map_carry_map_carry hp hcarries hcipher hfiles, hpack] at hpack'
      obtain rfl := Except.ok.inj hpack'
      exact ⟨houtcome, hbytes⟩

theorem filesFit_and_houses_iff {sealer : Sealer} {sealing : Bool} {tree : Node} {target : String}
    {d : Disk} (htree : tree.IsTree) (htarget : Disk.pathFault? target = none)
    (hp : sealer.isProtecting = true) (hcarries : CarriesAll sealer sealing tree) :
    FilesFit target tree ∧ d.Houses target tree (carry sealer sealing) ↔
      ∀ names contents, tree.at? names = some (.file contents) →
        (Path.append target (Path.ofNames names)).utf8ByteSize < Disk.maxPath ∧
          ∀ carried, Carried sealer sealing contents carried →
            d.HasRoom (d.place target ++ names) carried.length := by
  rw [filesFit_iff htree htarget]
  constructor
  · rintro ⟨hfit, hroom⟩ names contents hfile
    refine ⟨hfit names contents hfile, fun carried hcarried => ?_⟩
    rw [hcarried.eq_carry]
    exact hroom names contents hfile
  · intro h
    refine ⟨fun names contents hfile => (h names contents hfile).1, fun names contents hfile => ?_⟩
    exact (h names contents hfile).2 _ (carried_carry hp (hcarries names contents hfile))

/-- A tree is packed if its paths are not too long, its files not too many, and
none too long to be sealed.  Extracted into an empty directory, which may have
to be made, it is there again, as far as the paths are not too long there and
the files have room: its files under their names, each as it was, or, with
sealing, as it was if it was sealed and else sealed so that unsealing restores
it.  If that directory is there now, because it was or because something was
extracted, it is packed as the same pack. -/
theorem extracting_restores_the_tree (settings : Settings) (sealing : Bool) (target : String)
    {disk opened : Disk} {dir out : String} {entries : List (String × Node)} {location : Location}
    (hdir : disk.lookup dir = .ok (.directory entries)) (htree : (Node.directory entries).IsTree)
    (hout : disk.create out = .ok (location, opened)) (hroom : opened.room location = none) :
    let tree := Node.directory entries
    let sealer := settings.sealingSealer
    let packed := packDirectory settings dir out sealing disk
    let unpacked := unpackFile out (some target) false packed.disk
    ∃ index, AssetIndex.ofDirectory disk dir = .ok index ∧
      (packed.outcome = .ok () ↔
        (∀ names found, names ≠ [] → tree.at? names = some found →
          (Path.append dir (Path.ofNames names)).utf8ByteSize < Disk.maxPath) ∧
        CarriesAll sealer sealing tree ∧ index.size < UInt32.size) ∧
      (packed.outcome = .ok () → ∃ pack, packed.disk.fileBytes out = .ok pack ∧
        (pack.length < UInt64.size → packed.disk.Offers target .empty →
          (unpacked.outcome = .ok () ↔
            ∀ names contents, tree.at? names = some (.file contents) →
              (Path.append target (Path.ofNames names)).utf8ByteSize < Disk.maxPath ∧
                ∀ carried, Carried sealer sealing contents carried →
                  packed.disk.HasRoom (packed.disk.place target ++ names) carried.length) ∧
          (unpacked.outcome = .ok () →
            Restored sealer sealing tree unpacked.disk target ∧
            ∀ again opened' location', unpacked.disk.create again = .ok (location', opened') →
              opened'.room location' = none →
              let repacked := packDirectory settings target again sealing unpacked.disk
              (repacked.outcome = .ok () ↔ packed.disk.isDirectory target = true ∨
                ∃ names contents, tree.at? names = some (.file contents)) ∧
              (repacked.outcome = .ok () → repacked.disk.fileBytes again = .ok pack)))) ∧
      ∀ contents carried, Carried sealer true contents carried →
        sealer.classifyWhole carried = .sealedModule ∧
          (sealer.classifyWhole contents ≠ .sealedModule →
            sealer.unwrap carried = .ok contents) := by
  intro tree sealer packed unpacked
  have hp : sealer.isProtecting = true := rfl
  have hcipher : sealer.cipher.Invertible := Substitution.invertible_ofKey _
  obtain ⟨index, hindex⟩ := AssetIndex.exists_ofDirectory hdir
  have hpacked : packed.outcome = .ok () ↔
      Fits dir tree ∧ CarriesAll sealer sealing tree ∧ index.size < UInt32.size :=
    packDirectory_eq_ok_iff hdir htree hindex hout hroom
  refine ⟨index, hindex, ?_, fun houtcome => ?_, fun contents carried h => h.isSealed hcipher⟩
  · rwa [← fits_iff htree (Disk.pathFault?_of_lookup hdir)]
  obtain ⟨hfits, hcarries, hfew⟩ := hpacked.mp houtcome
  obtain ⟨files, pack, hfiles, hsize, hpack, -, hbytes⟩ :=
    packDirectory_of_tree hdir htree hindex hout hroom hfits hcarries hfew
  refine ⟨pack, hbytes, fun hlength hoffers => ?_⟩
  obtain ⟨hoffered, hdisk⟩ := unpackFile_eq hbytes (Pack.read_of_toBytes hpack hlength) target
  have hunpacked : unpacked.outcome = .ok () ↔
      FilesFit target tree ∧ packed.disk.Houses target tree (carry sealer sealing) := by
    rw [hoffered]
    exact extractEntries_eq_ok_iff htree rfl hfiles (carry sealer sealing) hoffers
  have htarget : Disk.pathFault? target = none := by
    obtain ⟨made, -, hempty⟩ := hoffers
    exact Disk.pathFault?_of_lookup hempty
  refine ⟨hunpacked.trans ?_, fun hextracted => ?_⟩
  · exact filesFit_and_houses_iff htree htarget hp hcarries
  obtain ⟨hfit, hroom⟩ := hunpacked.mp hextracted
  obtain ⟨last, node, hextract, hlast⟩ :=
    exists_extracted htree rfl hfiles (carry sealer sealing) hoffers hfit hroom
  have hdisk : unpacked.disk = last := hdisk.trans (congrArg Prod.snd hextract)
  rw [hdisk]
  refine ⟨restored_of_extracted hp hcarries htree rfl hfit hlast, ?_⟩
  intro again opened' location' hagain hagainRoom repacked
  have hrepacked (hthere : last.isDirectory target = true) :=
    packDirectory_again htree hfiles hcarries (hsize ▸ hfew) hpack hfit hlast hthere hagain
      hagainRoom
  rw [← hlast.isDirectory_iff]
  exact ⟨⟨isDirectory_of_packDirectory, fun hthere => (hrepacked hthere).1⟩,
    fun houtcome => (hrepacked (isDirectory_of_packDirectory houtcome)).2⟩

/-- A file, one that is sealed already and an empty directory below, packed and
extracted as they are, and sealed. -/
theorem file_below_is_there_again :
    let kept : Bytes := [77, 83, 69, 65, 76, 48, 49, 0, 1, 0, 0, 0, 5]
    let below : List (String × Node) := [("ü", .file kept), ("e", .empty)]
    let entries : List (String × Node) := [("a", .file [7]), ("b", .directory below)]
    let disk := Disk.scratch.set ["tmp", "work", "d"] (.directory entries)
    let packed (sealing : Bool) := packDirectory {} "d" "p" sealing disk
    let unpacked (sealing : Bool) := unpackFile "p" (some "t") false (packed sealing).disk
    let repacked := packDirectory {} "t" "q" false (unpacked false).disk
    (packed false).outcome = .ok () ∧ (unpacked false).outcome = .ok () ∧
      (unpacked false).disk.fileBytes "t/b/ü" = .ok kept ∧ repacked.outcome = .ok () ∧
      repacked.disk.fileBytes "q" = (packed false).disk.fileBytes "p" ∧
      (packed true).outcome = .ok () ∧ (unpacked true).outcome = .ok () ∧
      (unpacked true).disk.fileBytes "t/b/ü" = .ok kept ∧
      ∃ carried, (unpacked true).disk.fileBytes "t/a" = .ok carried ∧
        ({} : Settings).sealingSealer.unwrap carried = .ok [7] := by
  intro kept below entries disk packed unpacked repacked
  have hbelow : (Node.directory below).IsTree := by
    refine .directory (by decide +kernel) (by decide +kernel) ?_
    refine List.forall_mem_cons.mpr ⟨.file kept, List.forall_mem_singleton.mpr ?_⟩
    exact .directory (List.forall_mem_nil _) List.nodup_nil (List.forall_mem_nil _)
  have htree : (Node.directory entries).IsTree := by
    refine .directory (by decide +kernel) (by decide +kernel) ?_
    exact List.forall_mem_cons.mpr ⟨.file [7], List.forall_mem_singleton.mpr hbelow⟩
  have hshort : ∀ place ∈ (Node.directory entries).descendants,
      (Path.append "t" (Path.ofNames place.1)).utf8ByteSize < Disk.maxPath := by decide +kernel
  have hrestores (sealing : Bool) := extracting_restores_the_tree {} sealing "t"
    (show disk.lookup "d" = .ok (.directory entries) from rfl) htree
    (show disk.create "p" = .ok (["tmp", "work", "p"], disk.set ["tmp", "work", "p"] (.file []))
      from rfl) (by rfl)
  have hlength (sealing : Bool) :
      ((packed sealing).disk.fileBytes "p").toOption.any (·.length < UInt64.size) = true := by
    cases sealing with
    | false => decide +kernel
    | true => decide +kernel
  have hlimits (sealing : Bool) : (packed sealing).disk.limits = disk.limits :=
    limits_packDirectory
  have hpacked (sealing : Bool) : (packed sealing).outcome = .ok () := by
    cases sealing with
    | false => decide +kernel
    | true => decide +kernel
  have hoffers (sealing : Bool) : (packed sealing).disk.Offers "t" .empty := by
    cases sealing with
    | false => decide +kernel
    | true => decide +kernel
  have hagain : (unpacked false).disk.create "q" = .ok (["tmp", "work", "q"],
      (unpacked false).disk.set ["tmp", "work", "q"] (.file [])) := by
    have htarget : (unpacked false).disk.target "q" = .ok ["tmp", "work", "q"] := by
      decide +kernel
    exact Disk.create_eq_ok_iff.mpr ⟨htarget, rfl⟩
  have hextracted (sealing : Bool) : (unpacked sealing).outcome = .ok () ∧
      Restored ({} : Settings).sealingSealer sealing (.directory entries) (unpacked sealing).disk
        "t" ∧
      (sealing = false → repacked.outcome = .ok () ∧
        repacked.disk.fileBytes "q" = (packed false).disk.fileBytes "p") := by
    obtain ⟨-, -, -, hpack, -⟩ := hrestores sealing
    obtain ⟨pack, hbytes, hunpack⟩ := hpack (hpacked sealing)
    have hsmall := hlength sealing
    rw [show (packed sealing).disk.fileBytes "p" = .ok pack from hbytes] at hsmall
    obtain ⟨hiff, hthere⟩ := hunpack (of_decide_eq_true hsmall) (hoffers sealing)
    have houtcome := hiff.mpr fun names contents hfile =>
      ⟨hshort (names, .file contents)
        (Node.mem_descendants_of_at? (Node.ne_nil_of_file rfl hfile) hfile), fun carried _ =>
          Disk.hasRoom_of_room_eq_none (congrArg Limit.room (congrFun (hlimits sealing) _)) _⟩
    obtain ⟨hrestored, hrepack⟩ := hthere houtcome
    refine ⟨houtcome, hrestored, ?_⟩
    rintro rfl
    have hroom : ((unpacked false).disk.limits ["tmp", "work", "q"]).room = none := by
      rw [(confined_unpackFile "p" (some "t") false (packed false).disk).limits, hlimits]
      rfl
    obtain ⟨hpacks, hsame⟩ := hrepack "q" _ _ hagain hroom
    have hrepacked := hpacks.mpr (.inr ⟨["a"], [7], rfl⟩)
    exact ⟨hrepacked, (hsame hrepacked).trans hbytes.symm⟩
  obtain ⟨-, -, -, -, hseals⟩ := hrestores true
  have hkept (sealing : Bool) :
      (unpacked sealing).disk.fileBytes "t/b/ü" = .ok kept := by
    obtain ⟨carried, hcarried, hread⟩ := (hextracted sealing).2.1.read ["b", "ü"] kept rfl
    have hsealed : ({} : Settings).sealingSealer.classifyWhole kept = .sealedModule := by
      decide +kernel
    rw [Carried, if_neg fun hseals => hseals.2 hsealed] at hcarried
    exact hcarried ▸ hread
  obtain ⟨carried, hcarried, hread⟩ := (hextracted true).2.1.read ["a"] [7] rfl
  have hopen : ({} : Settings).sealingSealer.classifyWhole [7] ≠ .sealedModule := by
    decide +kernel
  obtain ⟨hrepacked, hsame⟩ := (hextracted false).2.2 rfl
  exact ⟨hpacked false, (hextracted false).1, hkept false, hrepacked, hsame, hpacked true,
    (hextracted true).1, hkept true, carried, hread, (hseals [7] carried hcarried).2 hopen⟩

/-- A path that fits does not say that what is below does, and nothing extracted
is not a directory: a directory of one file is packed, but not under a path that
is nearly too long, and not extracted into one; and an empty tree is packed and
extracted into a directory that is not made, which cannot be packed. -/
theorem restoring_has_limits :
    let entries : List (String × Node) := [("abc", .file [7])]
    let disk := Disk.scratch.set ["tmp", "work"]
      (.directory [("d", .directory entries), ("e", .empty), ("t", .empty)])
    let packed := packDirectory {} "d" "p" false disk
    let packedNothing := packDirectory {} "e" "p" true disk
    let unpackedNothing := unpackFile "p" (some "u") false packedNothing.disk
    (Node.directory entries).IsTree ∧ packed.outcome = .ok () ∧
      packed.disk.Offers (Path.dotted "t" 2046) .empty ∧
      (unpackFile "p" (some (Path.dotted "t" 2046)) false packed.disk).outcome ≠ .ok () ∧
      disk.lookup (Path.dotted "d" 2046) = .ok (.directory entries) ∧
      (packDirectory {} (Path.dotted "d" 2046) "p" false disk).outcome ≠ .ok () ∧
      packedNothing.outcome = .ok () ∧ packedNothing.disk.Offers "u" .empty ∧
      unpackedNothing.outcome = .ok () ∧
      (packDirectory {} "u" "q" true unpackedNothing.disk).outcome =
        .error ⟨"cannot index 'u'", ["No such file or directory (os error 2)"]⟩ := by
  intro entries disk packed packedNothing unpackedNothing
  have htree : (Node.directory entries).IsTree := by
    refine .directory (by decide +kernel) (by decide +kernel) ?_
    exact List.forall_mem_singleton.mpr (.file [7])
  have hlong (base : String) (hbase : base.utf8ByteSize = 1) :
      Disk.pathFault? (Path.append (Path.dotted base 2046) (Path.ofNames ["abc"])) ≠ none := by
    intro hsound
    have hsize := (Disk.pathFault?_eq_none_iff.mp hsound).2.2
    have hbelow : (Path.dotted base 2046).utf8ByteSize + (Path.ofNames ["abc"]).utf8ByteSize ≤ _ :=
      Path.utf8ByteSize_add_le_append (by decide +kernel)
    rw [Path.utf8ByteSize_dotted, hbase,
      show (Path.ofNames ["abc"]).utf8ByteSize = 3 by decide +kernel] at hbelow
    rw [Disk.maxPath] at hsize
    omega
  have hempty : packed.disk.lookup "t" = .ok .empty :=
    Disk.Offers.lookup_of_isDirectory (by decide +kernel) (by decide +kernel)
  have htarget : packed.disk.lookup (Path.dotted "t" 2046) = .ok .empty :=
    Disk.lookup_dotted hempty (by decide +kernel)
  have hdir : disk.lookup (Path.dotted "d" 2046) = .ok (.directory entries) :=
    Disk.lookup_dotted (by rfl) (by decide +kernel)
  refine ⟨htree, by decide +kernel, .of_lookup htarget rfl, fun hunpacked => ?_, hdir,
    fun hpacked => ?_, by decide +kernel, by decide +kernel, by decide +kernel, by decide +kernel⟩
  · let pack : Bytes := [3, 0, 0, 0, 1, 0, 0, 0, 0, 0, 0, 0, 97, 98, 99, 7, 77, 83, 80, 65, 67, 75, 0,
      0, 1, 0, 0, 0, 16, 0, 0, 0, 0, 0, 0, 0, 39, 145, 171, 70]
    have hbytes : packed.disk.fileBytes "p" = .ok pack := by decide +kernel
    have hread : Pack.read pack = .ok [("abc", [7])] := by decide +kernel
    have hextracted := (unpackFile_eq hbytes hread (Path.dotted "t" 2046)).1.symm.trans hunpacked
    refine hlong "t" (by decide +kernel) ?_
    exact (fits_of_extractEntries hextracted _ List.mem_cons_self ["abc"] (by decide +kernel)).1
  · obtain ⟨index, hindex⟩ := AssetIndex.exists_ofDirectory hdir
    have hcreate : disk.create "p" =
        .ok (["tmp", "work", "p"], disk.set ["tmp", "work", "p"] (.file [])) := by rfl
    have hfits := ((packDirectory_eq_ok_iff hdir htree hindex hcreate rfl).mp hpacked).1
    exact hlong "d" (by decide +kernel) (hfits ["abc"] _ (List.cons_ne_nil _ _) rfl)

end Command

end SealedModules
