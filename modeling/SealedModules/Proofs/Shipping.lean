/-
# What is found in a directory is found when it is shipped

A module is looked for as a file below a directory, or as an asset of the index
of that directory, or of a pack made from it.  The ways to the module's bytes
differ: a file is found by walking its path, an asset under its spelling.  For
a name whose pieces are names they come to the same place (`exists_toPath_eq`),
and from there it is only the bytes that count: `Answers` is what a finder makes
of the bytes that it comes to, and finders that come to the same bytes agree
(`Answers.agree`).

A name can be too long for a file, and a path too long to be opened.  No tree
has such a file, and no index such an asset, so this does not have to be looked
at.  A directory that has the name of a module does: it can be opened.
-/
import SealedModules.Proofs.Joining
import SealedModules.Proofs.Rooted
import SealedModules.Proofs.Transparency

namespace SealedModules

/-! ## The places that names lead to -/

namespace ModuleName

/-- The pieces of a module's name between its dots are not empty, and have
neither kind of slash. -/
def IsDotted (name : String) : Prop :=
  ∀ piece ∈ Text.split '.' name.toList, piece ≠ [] ∧ '/' ∉ piece ∧ '\\' ∉ piece

theorem exists_pieces_of_isDotted {name : String} (hname : IsDotted name) (extension : String) :
    ∃ front last, front ++ [last] ⊆ Text.split '.' name.toList ∧
      toPath name extension =
        String.ofList (Text.join '/' (front ++ [last ++ '.' :: extension.toList])) := by
  have hdots : Text.hasDoubleDot name.toList = false := by
    refine Bool.eq_false_iff.mpr fun hdots => ?_
    exact (hname [] (Text.nil_mem_split_of_hasDoubleDot hdots)).1 rfl
  obtain ⟨stem, hstem, hpath⟩ := toPath_eq hdots extension
  have hpieces : Text.split '.' stem ⊆ Text.split '.' name.toList := by
    rcases hstem with ⟨heq, -⟩ | heq
    · rw [heq]
      exact List.Subset.refl _
    · rw [heq, Text.split_append]
      exact List.subset_append_left _ _
  obtain ⟨front, last, hsplit⟩ :=
    (List.eq_nil_or_concat' (Text.split '.' stem)).resolve_left (Text.split_ne_nil '.' stem)
  refine ⟨front, last, hsplit ▸ hpieces, String.toList_injective ?_⟩
  rw [hpath, String.toList_ofList, Text.join_concat, ← hsplit, Text.join_split]

theorem isPiece_ofList {piece : List Char} (hne : piece ≠ []) (hdot : piece.head? ≠ some '.')
    (hslash : '/' ∉ piece) (hback : '\\' ∉ piece) : Path.IsPiece (String.ofList piece) := by
  refine ⟨⟨⟨?_, ?_, ?_⟩, by rwa [String.toList_ofList]⟩, by rwa [String.toList_ofList]⟩
  · exact fun heq => hne (String.ofList_eq_empty_iff.mp heq)
  · intro heq
    rw [← String.toList_ofList (l := piece), heq] at hdot
    exact hdot rfl
  · intro heq
    rw [← String.toList_ofList (l := piece), heq] at hdot
    exact hdot rfl

theorem exists_toPath_eq {name extension : String} (hname : IsDotted name)
    (hextension : Settings.isBareExtension extension = true) :
    ∃ names, names ≠ [] ∧ (∀ name ∈ names, Path.IsPiece name) ∧
      toPath name extension = Path.ofNames names := by
  obtain ⟨front, last, hpieces, hpath⟩ := exists_pieces_of_isDotted hname extension
  have hhead : ∀ piece ∈ front ++ [last], piece.head? ≠ some '.' := fun piece hmem hdot =>
    Text.not_mem_of_mem_split (hpieces hmem) (List.mem_of_head? hdot)
  have hbare := (Settings.isBareExtension_iff.mp hextension).2
  refine ⟨(front ++ [last ++ '.' :: extension.toList]).map String.ofList, by simp, ?_, ?_⟩
  · rw [List.forall_mem_map, List.forall_mem_append, List.forall_mem_singleton]
    constructor
    · intro piece hmem
      have hpiece := List.mem_append_left [last] hmem
      obtain ⟨hne, hslash, hback⟩ := hname piece (hpieces hpiece)
      exact isPiece_ofList hne (hhead piece hpiece) hslash hback
    · have hlast : last ∈ front ++ [last] := List.mem_append_right front List.mem_cons_self
      obtain ⟨hne, hslash, hback⟩ := hname last (hpieces hlast)
      have hslash' : '/' ∉ extension.toList := fun hmem => (hbare _ hmem).2.1 rfl
      have hback' : '\\' ∉ extension.toList := fun hmem => (hbare _ hmem).2.2 rfl
      refine isPiece_ofList (by simp) ?_ (by simp [hslash, hslash']) (by simp [hback, hback'])
      rw [List.head?_append_of_ne_nil _ hne]
      exact hhead last hlast
  · rw [hpath, Path.ofNames, List.map_map]
    exact congrArg (fun pieces => String.ofList (Text.join '/' pieces))
      (List.map_id'' (fun piece => String.toList_ofList) _).symm

end ModuleName

/-! ## What a finder makes of the bytes it comes to -/

namespace Finder

/-- The answers of a finder that comes to these bytes, or to nothing. -/
inductive Answers (sealer : Sealer) (name : String) (given : Interpreter) :
    Option Bytes → FinderAnswer × Interpreter → Prop where
  | absent (message : String) : Answers sealer name given none (.nothing message, given)
  | loaded (bytes : Bytes) (origin : String) :
      Answers sealer name given (some bytes)
        (.ofCompilation name origin (Compilation.outcome sealer bytes bytes.length (some name)),
          given.noteLoad name)

/-- Two finders find nothing, or the same module, or the interpreter rejects
what they find for the same reason. -/
inductive Agree (name : String) :
    FinderAnswer × Interpreter → FinderAnswer × Interpreter → Prop where
  | nothing (message message' : String) (last : Interpreter) :
      Agree name (.nothing message, last) (.nothing message', last)
  | found (unit : CompiledModule) (origin origin' : String) (last : Interpreter) :
      Agree name (.found unit origin, last) (.found unit origin', last)
  | rejected (reason origin origin' : String) (last : Interpreter) :
      Agree name (.failed (.broken name origin (.rejected name reason)), last)
        (.failed (.broken name origin' (.rejected name reason)), last)

/-- The module that was found. -/
def unit? : FinderAnswer → Option CompiledModule
  | .found unit _ => some unit
  | _ => none

theorem Agree.unit?_eq {name : String} {answer answer' : FinderAnswer × Interpreter}
    (h : Agree name answer answer') : unit? answer'.1 = unit? answer.1 := by
  cases h <;> rfl

section
variable {sealer : Sealer} {name : String} {given : Interpreter}

theorem Answers.agree {found : Option Bytes} {answer answer' : FinderAnswer × Interpreter}
    (h : Answers sealer name given found answer) (h' : Answers sealer name given found answer') :
    Agree name answer answer' := by
  cases h with
  | absent message =>
      cases h' with
      | absent message' => exact .nothing message message' given
  | loaded bytes origin =>
      cases h' with
      | loaded _ origin' =>
          unfold Compilation.outcome
          cases Interpreter.read (payload sealer bytes bytes.length)
              ((some name).getD Interpreter.anonymous) with
          | ok unit => exact .found unit origin origin' _
          | error reason => exact .rejected reason origin origin' _

end

section
variable {around : Surroundings} (name : String) (given : Interpreter)

/-- A file that can be opened has to be one that can be read. -/
theorem answers_askFile {root : Option String} {extension : String} {found : Option Bytes}
    (hfound : ∀ bytes, found = some bytes →
      around.disk.fileBytes (ModuleName.filePath root name extension) = .ok bytes)
    (hopens : ∀ opened,
      around.disk.openFile (ModuleName.filePath root name extension) = .ok opened →
        found ≠ none) :
    Answers around.sealer name given found (askFile root extension name around given) := by
  unfold askFile
  cases found with
  | none =>
      cases hopen : around.disk.openFile (ModuleName.filePath root name extension) with
      | error fault =>
          simp only [hopen]
          exact .absent _
      | ok opened => exact absurd rfl (hopens opened hopen)
  | some bytes =>
      have hopen := Disk.openFile_of_fileBytes (hfound bytes rfl)
      simp only [hopen, Compilation.ofFile_of_openFile _ _ hopen]
      exact .loaded bytes _

theorem answers_askAsset {index : AssetIndex} {root : Option String} {extension path : String}
    (hpath : ModuleName.assetPath root name extension = path)
    (hnormal : AssetPath.normalize path = path)
    (hreadable : ∀ entry, index.get? path = some entry →
      ∃ bytes, AssetIndex.entryBytes around.disk entry = .ok bytes) :
    Answers around.sealer name given (index.contents? around.disk path)
      (askAsset index.toSource root extension name around given) := by
  unfold askAsset
  rw [hpath]
  have hcontains : index.toSource.contains path = (index.get? path).isSome := by
    show (index.get? (AssetPath.normalize path)).isSome = _
    rw [hnormal]
  simp only [hcontains, AssetIndex.contents?]
  cases hentry : index.get? path with
  | none => exact .absent _
  | some entry =>
      obtain ⟨bytes, hbytes⟩ := hreadable entry hentry
      obtain ⟨plan, hfetch, hsteady⟩ :=
        AssetIndex.serves (hnormal.symm ▸ hentry) hbytes
      have hcalm : StreamFeed.Undisturbed ⟨bytes, plan⟩ bytes.length around.sealer
          around.blockSize := StreamFeed.undisturbed_of_steadyPlan hsteady _ _ _
      simp only [Option.isSome_some, if_true, Option.bind_some, hbytes, Compilation.ofAsset, hfetch,
        Compilation.ofFeed_of_undisturbed _ _ hcalm]
      exact .loaded bytes _

end

/-! ## From a directory to a pack -/

section
variable {around : Surroundings} {root name extension : String} {entries : List (String × Node)}
  {names : Location}
  (hroot : around.disk.lookup root = .ok (.directory entries))
  (htree : (Node.directory entries).IsTree) (hne : names ≠ [])
  (hnames : ∀ name ∈ names, Path.IsPiece name)
  (hpath : ModuleName.toPath name extension = Path.ofNames names)
  (hcandidate : ¬ around.disk.HoldsDirectory
    (around.disk.place (ModuleName.filePath (some root) name extension)))
include hroot htree hne hnames hpath hcandidate

theorem exists_file_of_candidate {found : Node}
    (hfound : (Node.directory entries).at? names = some found) :
    ∃ contents, found = .file contents := by
  refine (htree.at? hfound).2.exists_file (Bool.eq_false_iff.mpr fun hdirectory => hcandidate ?_)
  have hplace : around.disk.place (ModuleName.filePath (some root) name extension) =
      around.disk.place root ++ names := by
    rw [ModuleName.filePath, hpath]
    exact around.disk.place_append root hne fun name hmem => (hnames name hmem).isName
  rw [hplace, Disk.HoldsDirectory, Disk.node?_place_append hroot, hfound]
  exact hdirectory

theorem answers_askFile_of_tree (given : Interpreter)
    (hsound : ∀ names contents, (Node.directory entries).at? names = some (.file contents) →
      Disk.pathFault? (Path.append root (Path.ofNames names)) = none) {index : AssetIndex}
    (hindex : AssetIndex.ofDirectory around.disk root = .ok index) :
    Answers around.sealer name given (index.contents? around.disk (Path.ofNames names))
      (askFile (some root) extension name around given) := by
  have hnames' : ∀ name ∈ names, Path.IsName name := fun name hmem => (hnames name hmem).isName
  have hfile : ModuleName.filePath (some root) name extension =
      Path.append root (Path.ofNames names) := congrArg (Path.append root) hpath
  refine answers_askFile name given (fun bytes hbytes => ?_) (fun opened hopen hnone => ?_)
  · have hthere := (AssetIndex.contents?_ofNames_iff hroot htree hindex hsound hne hnames').mp hbytes
    rw [hfile]
    exact (Disk.fileBytes_append_iff hroot htree hne hnames').mpr
      ⟨hsound names bytes hthere, hthere⟩
  · rw [hfile] at hopen
    obtain ⟨node, hlookup, -⟩ := bind_eq_ok.mp hopen
    obtain ⟨-, hthere⟩ := (Disk.lookup_append_iff hroot htree hne hnames').mp hlookup
    obtain ⟨contents, rfl⟩ :=
      exists_file_of_candidate hroot htree hne hnames hpath hcandidate hthere
    rw [(AssetIndex.contents?_ofNames_iff hroot htree hindex hsound hne hnames').mpr hthere] at hnone
    cases hnone

theorem answers_askAsset_of_tree (given : Interpreter)
    (hsound : ∀ names contents, (Node.directory entries).at? names = some (.file contents) →
      Disk.pathFault? (Path.append root (Path.ofNames names)) = none) {index : AssetIndex}
    (hindex : AssetIndex.ofDirectory around.disk root = .ok index) :
    Answers around.sealer name given (index.contents? around.disk (Path.ofNames names))
      (askAsset index.toSource none extension name around given) := by
  have hnames' : ∀ name ∈ names, Path.IsName name := fun name hmem => (hnames name hmem).isName
  have hasset : ModuleName.assetPath none name extension = Path.ofNames names := by
    rw [ModuleName.assetPath, hpath, AssetPath.join_none_ofNames hnames]
  refine answers_askAsset name given hasset (AssetPath.normalize_ofNames hne hnames) ?_
  intro entry hentry
  obtain ⟨⟨found, hlisted⟩, rfl⟩ :=
    (AssetIndex.get?_ofNames_iff hroot htree hindex hne hnames').mp hentry
  obtain ⟨contents, rfl⟩ :=
    exists_file_of_candidate hroot htree hne hnames hpath hcandidate hlisted.there
  exact ⟨contents, (Disk.fileBytes_append_iff hroot htree hne hnames').mpr
    ⟨hsound names contents hlisted.there, hlisted.there⟩⟩

end

/-- A pack made of what an index holds answers like the index. -/
theorem answers_askAsset_of_pack (around : Surroundings) {disk : Disk} {name extension : String}
    {names : Location} (given : Interpreter) (hne : names ≠ [])
    (hnames : ∀ name ∈ names, Path.IsPiece name)
    (hpath : ModuleName.toPath name extension = Path.ofNames names) {index : AssetIndex}
    (hpackable : AssetIndex.Packable disk index) :
    let packed : AssetIndex := (AssetIndex.contents disk index).map .embedded
    Answers around.sealer name given (index.contents? disk (Path.ofNames names))
      (askAsset packed.toSource none extension name around given) := by
  intro packed
  have hasset : ModuleName.assetPath none name extension = Path.ofNames names := by
    rw [ModuleName.assetPath, hpath, AssetPath.join_none_ofNames hnames]
  have hembedded : ∀ path entry, packed.get? path = some entry →
      ∃ bytes, AssetIndex.entryBytes around.disk entry = .ok bytes := by
    intro path entry hentry
    rw [Dictionary.get?_map] at hentry
    obtain ⟨bytes, -, rfl⟩ := Option.map_eq_some_iff.mp hentry
    exact ⟨bytes, rfl⟩
  have hcontents : packed.contents? around.disk (Path.ofNames names) =
      index.contents? disk (Path.ofNames names) := by
    rw [← hpackable.get?_contents, AssetIndex.contents?, Dictionary.get?_map]
    cases (AssetIndex.contents disk index).get? (Path.ofNames names) with
    | none => rfl
    | some bytes => rfl
  rw [← hcontents]
  exact answers_askAsset name given hasset (AssetPath.normalize_ofNames hne hnames)
    (hembedded _)

/-- A directory of modules, the index of it, and a pack made from that: a module
with a dotted name is found in all of them or in none, with the same outcome.
The directory is a tree of files that can be read, and where the module is
looked for there is not a directory.  The pack is asked wherever it was brought. -/
theorem file_asset_and_pack_agree {around : Surroundings} {root name extension : String}
    {entries : List (String × Node)} (given : Interpreter)
    (hroot : around.disk.lookup root = .ok (.directory entries))
    (htree : (Node.directory entries).IsTree)
    (hreadable : ∀ names contents, (Node.directory entries).at? names = some (.file contents) →
      ∃ bytes, around.disk.fileBytes (Path.append root (Path.ofNames names)) = .ok bytes)
    (hextension : Settings.isBareExtension extension = true) (hname : ModuleName.IsDotted name)
    (hcandidate : ¬ around.disk.HoldsDirectory
      (around.disk.place (ModuleName.filePath (some root) name extension))) :
    ∃ index, AssetIndex.ofDirectory around.disk root = .ok index ∧
      Agree name (askFile (some root) extension name around given)
        (askAsset index.toSource none extension name around given) ∧
      ∀ (files : List (String × Bytes)) (o o' : Output) (size : Nat),
        index.collect around.disk = .ok files → o.contents = [] →
          Pack.writeTo o files = (.ok size, o') → o'.contents.length < UInt64.size →
            ∃ packed, AssetIndex.ofPack o'.contents = .ok packed ∧
              ∀ elsewhere, Agree name (askFile (some root) extension name around given)
                (askAsset packed.toSource none extension name { around with disk := elsewhere }
                  given) := by
  obtain ⟨names, hne, hnames, hpath⟩ := ModuleName.exists_toPath_eq hname hextension
  obtain ⟨index, hindex⟩ := AssetIndex.exists_ofDirectory hroot
  have hsound : ∀ names contents, (Node.directory entries).at? names = some (.file contents) →
      Disk.pathFault? (Path.append root (Path.ofNames names)) = none := by
    intro names contents hthere
    obtain ⟨bytes, hbytes⟩ := hreadable names contents hthere
    obtain ⟨node, hlookup, -⟩ := bind_eq_ok.mp hbytes
    exact Disk.pathFault?_of_lookup hlookup
  have hfile := answers_askFile_of_tree hroot htree hne hnames hpath hcandidate given hsound hindex
  refine ⟨index, hindex, hfile.agree ?_, ?_⟩
  · exact answers_askAsset_of_tree hroot htree hne hnames hpath hcandidate given hsound hindex
  · intro files o o' size hcollect hempty hwrite hlength
    have hpackable := AssetIndex.packable_of_collect hindex hcollect
    obtain rfl := Except.ok.inj (hcollect.symm.trans hpackable.collect_eq)
    have hread := (Pack.read_of_writeTo hwrite hempty hlength).2
    refine ⟨_, hpackable.ofPack_eq hread, fun elsewhere => hfile.agree ?_⟩
    let there : Surroundings := { around with disk := elsewhere }
    exact answers_askAsset_of_pack there given hne hnames hpath hpackable

/-- A script in a directory below, found as a file, in the index, and in the
pack on another disk. -/
theorem script_below_is_shipped :
    let script := Utf8.encode "return 7"
    let below : List (String × Node) := [("list.lua", .file script)]
    let entries : List (String × Node) := [("ui", .directory below)]
    let disk := Disk.scratch.set ["tmp", "work", "d"] (.directory entries)
    let sealer : Sealer := ⟨{}, Substitution.ofKey Sealer.defaultKey, Sealer.defaultSignature⟩
    let around : Surroundings := ⟨sealer, 2, Dictionary.empty, disk⟩
    let shipped : Surroundings := ⟨sealer, 2, Dictionary.empty, Disk.scratch⟩
    let found : CompiledModule := ⟨some 7, none, "ui.list", script⟩
    ∃ index pack packed, AssetIndex.ofDirectory disk "d" = .ok index ∧
      Pack.toBytes [("ui/list.lua", script)] = .ok pack ∧ AssetIndex.ofPack pack = .ok packed ∧
      unit? (askFile (some "d") "lua" "ui.list" around {}).1 = some found ∧
      unit? (askAsset index.toSource none "lua" "ui.list" around {}).1 = some found ∧
      unit? (askAsset packed.toSource none "lua" "ui.list" shipped {}).1 = some found := by
  intro script below entries disk sealer around shipped found
  have hbelow : (Node.directory below).IsTree := by
    refine .directory (by decide +kernel) (by decide +kernel) ?_
    exact List.forall_mem_singleton.mpr (.file script)
  have htree : (Node.directory entries).IsTree := by
    refine .directory (by decide +kernel) (by decide +kernel) ?_
    exact List.forall_mem_singleton.mpr hbelow
  have hreadable : ∀ names contents, (Node.directory entries).at? names = some (.file contents) →
      ∃ bytes, around.disk.fileBytes (Path.append "d" (Path.ofNames names)) = .ok bytes := by
    intro names contents hfile
    have hne : names ≠ [] := by
      rintro rfl
      cases hfile
    have hmem := Node.mem_descendants_of_at? hne hfile
    simp only [entries, below, Node.descendants, Node.entryDescendants, List.map_nil, List.map_cons,
      List.append_nil, List.mem_cons, List.not_mem_nil, Prod.mk.injEq, reduceCtorEq, and_false,
      false_or, or_false] at hmem
    obtain ⟨rfl, -⟩ := hmem
    exact ⟨script, rfl⟩
  have hfound : unit? (askFile (some "d") "lua" "ui.list" around {}).1 = some found := by
    decide +kernel
  have hname : ModuleName.IsDotted "ui.list" := by
    unfold ModuleName.IsDotted
    decide +kernel
  have hfree : ¬ around.disk.HoldsDirectory
      (around.disk.place (ModuleName.filePath (some "d") "ui.list" "lua")) := by
    unfold Disk.HoldsDirectory
    decide +kernel
  obtain ⟨index, hindex, hasset, hshipped⟩ := file_asset_and_pack_agree {} (by rfl) htree
    hreadable (by decide +kernel) hname hfree
  let indexed : AssetIndex := AssetIndex.ofEntries [("ui/list.lua", .onDisk "d/ui/list.lua")]
  have hindexed : AssetIndex.ofDirectory disk "d" = .ok indexed := by rfl
  have hcollect : indexed.collect disk = .ok [("ui/list.lua", script)] := by decide +kernel
  let pack : Bytes := [11, 0, 0, 0, 8, 0, 0, 0, 0, 0, 0, 0, 117, 105, 47, 108, 105, 115, 116,
    46, 108, 117, 97, 114, 101, 116, 117, 114, 110, 32, 55, 77, 83, 80, 65, 67, 75, 0, 0, 1, 0,
    0, 0, 31, 0, 0, 0, 0, 0, 0, 0, 229, 121, 215, 240]
  have hpack : Pack.toBytes [("ui/list.lua", script)] = .ok pack := by decide +kernel
  obtain ⟨o, hwrite, hext⟩ := Pack.writeTo_of_room_eq_none (o := {}) hpack rfl
  have hcontents : o.contents = pack := hext.contents_of_contents_eq_nil rfl
  have hlength : o.contents.length < UInt64.size := by
    rw [hcontents]
    decide
  obtain rfl := Except.ok.inj (hindexed.symm.trans hindex)
  obtain ⟨packed, hpacked, hagree⟩ := hshipped _ {} o _ hcollect rfl hwrite hlength
  rw [hcontents] at hpacked
  exact ⟨indexed, pack, packed, hindex, hpack, hpacked, hfound, hasset.unit?_eq.trans hfound,
    (hagree Disk.scratch).unit?_eq.trans hfound⟩

end Finder

end SealedModules
