/-
# An index and its pack

An index is filled from a directory and by hand, and its pack is made of all
its entries.  Loading the pack gives an index that answers every request like
the first one, in whatever spelling a path is asked for
(`packed_index_serves_the_same`).

Two facts carry this.  The paths of an index are in normal form, so loading
does not change them and no two entries fall together; and every entry can be
read, so that collecting them gives what the index maps, `contents`.  Since a
dictionary is what it maps, neither the order in which an index was filled nor
the order in which its entries are gone through is seen in the pack:
`collectFrom` goes through them in any order and sorts what it has read by the
bytes of the paths.
-/
import SealedModules.Asset.Index
import SealedModules.Proofs.AssetPath
import SealedModules.Proofs.Dictionary
import SealedModules.Proofs.Files
import SealedModules.Proofs.PackReading

namespace SealedModules

/-- An opened asset that holds just these bytes. -/
def Asset.ofBytes (bytes : Bytes) : Asset := ⟨bytes.length, { rest := bytes }⟩

theorem mapM_eq_ok {ε α β : Type} {f : α → Except ε β} {g : α → β} {xs : List α}
    (h : ∀ x ∈ xs, f x = .ok (g x)) : xs.mapM f = .ok (xs.map g) := by
  induction xs with
  | nil => rfl
  | cons x xs ih =>
      have hlater := ih fun y hy => h y (List.mem_cons_of_mem x hy)
      rw [List.mapM_cons, h x List.mem_cons_self, hlater]
      rfl

theorem exists_ok_of_mapM {ε α β : Type} {f : α → Except ε β} {xs : List α} {ys : List β}
    (h : xs.mapM f = .ok ys) : ∀ x ∈ xs, ∃ y, f x = .ok y := by
  induction xs generalizing ys with
  | nil => exact List.forall_mem_nil _
  | cons x xs ih =>
      rw [List.mapM_cons] at h
      cases hx : f x with
      | error e =>
          rw [hx] at h
          cases h
      | ok y =>
          rw [hx] at h
          cases hxs : xs.mapM f with
          | error e =>
              rw [hxs] at h
              cases h
          | ok later => exact List.forall_mem_cons.mpr ⟨⟨y, hx⟩, ih hxs⟩

namespace AssetIndex

/-! ## Indexes that come about -/

/-- The indexes that come about from a directory, or from nothing, by embedding
assets, and whose files can be read on a disk. -/
inductive Reached (disk : Disk) : AssetIndex → Prop where
  | empty : Reached disk Dictionary.empty
  | directory {indexed : Disk} {root : String} {index : AssetIndex}
      (h : ofDirectory indexed root = .ok index)
      (hreadable : ∀ path file, index.get? path = some (.onDisk file) →
        ∃ bytes, disk.fileBytes file = .ok bytes) : Reached disk index
  | embed {index : AssetIndex} (h : Reached disk index) (path : String) (bytes : Bytes) :
      Reached disk (index.embed path bytes)

/-- What packing an index relies on. -/
structure Packable (disk : Disk) (index : AssetIndex) : Prop where
  normal : ∀ path entry, index.get? path = some entry → AssetPath.normalize path = path
  readable : ∀ path entry, index.get? path = some entry →
    ∃ bytes, entryBytes disk entry = .ok bytes

theorem normalize_of_get?_ofEntries {entries : List (String × AssetEntry)} {path : String}
    {entry : AssetEntry} (h : (ofEntries entries).get? path = some entry) :
    AssetPath.normalize path = path := by
  obtain ⟨spelled, -, heq⟩ := List.mem_map.mp (Dictionary.mem_of_get?_ofList h)
  obtain ⟨rfl, -⟩ := Prod.mk.inj heq
  exact AssetPath.normalize_normalize spelled.1

theorem packable_of_directory {disk indexed : Disk} {root : String} {index : AssetIndex}
    (h : ofDirectory indexed root = .ok index)
    (hreadable : ∀ path file, index.get? path = some (.onDisk file) →
      ∃ bytes, disk.fileBytes file = .ok bytes) : Packable disk index := by
  obtain ⟨files, -, h⟩ := bind_eq_ok.mp h
  obtain rfl := Except.ok.inj h
  refine ⟨fun path entry hentry => normalize_of_get?_ofEntries hentry, ?_⟩
  intro path entry hentry
  cases entry with
  | embedded bytes => exact ⟨bytes, rfl⟩
  | onDisk file => exact hreadable path file hentry

theorem Packable.embed {disk : Disk} {index : AssetIndex} (h : Packable disk index)
    (path : String) (bytes : Bytes) : Packable disk (index.embed path bytes) := by
  constructor
  · intro other entry hentry
    rw [AssetIndex.embed, Dictionary.get?_insert] at hentry
    split at hentry
    · rename_i hother
      rw [hother]
      exact AssetPath.normalize_normalize path
    · exact h.normal other entry hentry
  · intro other entry hentry
    rw [AssetIndex.embed, Dictionary.get?_insert] at hentry
    split at hentry
    · obtain rfl := Option.some.inj hentry
      exact ⟨bytes, rfl⟩
    · exact h.readable other entry hentry

theorem Reached.packable {disk : Disk} {index : AssetIndex} (h : Reached disk index) :
    Packable disk index := by
  induction h with
  | empty => exact ⟨fun _ _ hentry => (nomatch hentry), fun _ _ hentry => (nomatch hentry)⟩
  | directory h hreadable => exact packable_of_directory h hreadable
  | embed _ path bytes ih => exact ih.embed path bytes

/-! ## What is collected -/

/-- The bytes of the asset at a path in normal form. -/
def contents? (disk : Disk) (index : AssetIndex) (path : String) : Option Bytes :=
  (index.get? path).bind fun entry => (entryBytes disk entry).toOption

/-- The bytes of all assets, under their paths. -/
def contents (disk : Disk) (index : AssetIndex) : Dictionary Bytes :=
  index.map fun entry => (entryBytes disk entry).toOption.getD []

/-- The files of entries gone through in some order, sorted by the bytes of
their paths. -/
def collectFrom (disk : Disk) (order : List (String × AssetEntry)) :
    Except Fault (List (String × Bytes)) := do
  let files ← order.mapM fun entry =>
    (entryBytes disk entry.2).map fun bytes => (entry.1, bytes)
  return Dictionary.sortByBytes files

/-- The pack of entries gone through in some order. -/
def packFrom (disk : Disk) (order : List (String × AssetEntry)) : Except Fault Bytes := do
  Pack.toBytes (← collectFrom disk order)

section
variable {disk : Disk} {index : AssetIndex} (h : Packable disk index)
include h

theorem Packable.get?_contents (path : String) :
    (contents disk index).get? path = index.contents? disk path := by
  rw [contents, Dictionary.get?_map, contents?]
  cases hentry : index.get? path with
  | none => rfl
  | some entry =>
      obtain ⟨bytes, hbytes⟩ := h.readable path entry hentry
      rw [Option.map_some, Option.bind_some, hbytes]
      rfl

theorem Packable.mapM_of_perm {order : List (String × AssetEntry)}
    (horder : order.Perm index.entries) :
    (order.mapM fun entry => (entryBytes disk entry.2).map fun bytes => (entry.1, bytes)) =
      .ok (order.map fun entry => (entry.1, (entryBytes disk entry.2).toOption.getD [])) := by
  refine mapM_eq_ok fun entry hmem => ?_
  have hentry : index.get? entry.1 = some entry.2 :=
    Dictionary.get?_eq_some_iff.mpr (horder.subset hmem)
  obtain ⟨bytes, hbytes⟩ := h.readable entry.1 entry.2 hentry
  rw [hbytes]
  rfl

theorem Packable.collect_eq : index.collect disk = .ok (contents disk index).entries :=
  h.mapM_of_perm (List.Perm.refl _)

/-- The order in which entries are gone through does not show. -/
theorem Packable.collectFrom_of_perm {order : List (String × AssetEntry)}
    (horder : order.Perm index.entries) :
    collectFrom disk order = .ok (contents disk index).entries := by
  rw [collectFrom, h.mapM_of_perm horder]
  have hperm := horder.map fun entry =>
    (entry.1, (entryBytes disk entry.2).toOption.getD [])
  exact congrArg Except.ok (Dictionary.sortByBytes_of_perm (d := contents disk index) hperm)

/-! ## The pack of an index -/

/-- What was collected has the paths of the index in normal form, so an index
is built of it as it is. -/
theorem Packable.ofEntries_contents :
    ofEntries ((contents disk index).entries.map fun file => (file.1, .embedded file.2)) =
      (contents disk index).map .embedded := by
  have hkeep : ∀ entry ∈ ((contents disk index).map AssetEntry.embedded).entries,
      (AssetPath.normalize entry.1, entry.2) = entry := by
    intro entry hmem
    have hentry := Dictionary.get?_eq_some_iff.mpr hmem
    rw [contents, Dictionary.get?_map, Dictionary.get?_map] at hentry
    obtain ⟨bytes, hbytes, -⟩ := Option.map_eq_some_iff.mp hentry
    obtain ⟨found, hfound, -⟩ := Option.map_eq_some_iff.mp hbytes
    rw [h.normal entry.1 found hfound]
  calc ofEntries ((contents disk index).entries.map fun file => (file.1, .embedded file.2))
      = Dictionary.ofList (((contents disk index).map AssetEntry.embedded).entries.map
          fun entry => (AssetPath.normalize entry.1, entry.2)) := rfl
    _ = Dictionary.ofList ((contents disk index).map AssetEntry.embedded).entries := by
        rw [List.map_congr_left hkeep, List.map_id']
    _ = (contents disk index).map .embedded := Dictionary.ofList_entries _

theorem Packable.ofPack_eq {pack : Bytes}
    (hread : Pack.read pack = .ok (contents disk index).entries) :
    ofPack pack = .ok ((contents disk index).map .embedded) := by
  unfold ofPack
  rw [hread]
  exact congrArg Except.ok h.ofEntries_contents

theorem Packable.serves_contents (path : String) (elsewhere : Disk) :
    let packed : AssetIndex := (contents disk index).map .embedded
    packed.holds path = index.holds path ∧
      ((∃ bytes, index.fetch disk path = .ok (.ofBytes bytes) ∧
          packed.fetch elsewhere path = .ok (.ofBytes bytes)) ∨
        index.fetch disk path = .error (.notFound (AssetPath.normalize path)) ∧
          packed.fetch elsewhere path = .error (.notFound (AssetPath.normalize path))) := by
  intro packed
  have hpacked : packed.get? (AssetPath.normalize path) =
      (index.contents? disk (AssetPath.normalize path)).map .embedded := by
    rw [Dictionary.get?_map, h.get?_contents]
  unfold holds fetch Dictionary.contains
  rw [hpacked, contents?]
  cases hentry : index.get? (AssetPath.normalize path) with
  | none => exact ⟨rfl, .inr ⟨rfl, rfl⟩⟩
  | some entry =>
      obtain ⟨bytes, hbytes⟩ := h.readable _ entry hentry
      rw [Option.bind_some, hbytes]
      refine ⟨rfl, .inl ⟨bytes, ?_, rfl⟩⟩
      cases entry with
      | embedded held =>
          obtain rfl := Except.ok.inj hbytes
          rfl
      | onDisk file =>
          simp only [Disk.openFile_of_fileBytes hbytes]
          rfl

end

theorem exists_toBytes_iff {disk : Disk} {index : AssetIndex} :
    (∃ pack, Pack.toBytes (contents disk index).entries = .ok pack) ↔
      (∀ path ∈ index.keys, path.utf8ByteSize < UInt32.size) ∧ index.size < UInt32.size := by
  have hkeys : (contents disk index).keys = index.keys := Dictionary.keys_map _ _
  have hsize : (contents disk index).entries.length = index.size := List.length_map _
  have hpaths : (∀ file ∈ (contents disk index).entries, file.1.utf8ByteSize < UInt32.size) ↔
      ∀ path ∈ index.keys, path.utf8ByteSize < UInt32.size := by
    rw [← hkeys, Dictionary.keys, List.forall_mem_map]
  rw [← hpaths, ← hsize]
  constructor
  · rintro ⟨pack, hpack⟩
    obtain ⟨entries, trailer, hbuild, -⟩ := Pack.build_of_toBytes hpack
    obtain ⟨hshort, hcount, -⟩ := Pack.build_eq_ok_iff.mp hbuild
    exact ⟨hshort, hcount⟩
  · rintro ⟨hshort, hcount⟩
    exact ⟨_, Pack.toBytes_of_build (Pack.build_eq_ok_iff.mpr ⟨hshort, hcount, rfl⟩)⟩

/-- An index can be collected, and loading the pack of what was collected gives
an index with the same paths that answers every request in the same way; the
pack is made whenever the format can hold the paths and their number.  It
depends only on what the index maps: another index with the same contents,
built in another way and gone through in another order, has the same pack. -/
theorem packed_index_serves_the_same {disk : Disk} {index : AssetIndex}
    (h : Reached disk index) :
    ∃ files, index.collect disk = .ok files ∧
      ((∃ pack, Pack.toBytes files = .ok pack) ↔
        (∀ path ∈ index.keys, path.utf8ByteSize < UInt32.size) ∧ index.size < UInt32.size) ∧
      (∀ (o o' : Output) (size : Nat), o.contents = [] →
        Pack.writeTo o files = (.ok size, o') → o'.contents.length < UInt64.size →
          ∃ packed, ofPack o'.contents = .ok packed ∧ packed.keys = index.keys ∧
            ∀ (path : String) (elsewhere : Disk),
              packed.holds path = index.holds path ∧
              ((∃ bytes, index.fetch disk path = .ok (.ofBytes bytes) ∧
                  packed.fetch elsewhere path = .ok (.ofBytes bytes)) ∨
                index.fetch disk path = .error (.notFound (AssetPath.normalize path)) ∧
                  packed.fetch elsewhere path =
                    .error (.notFound (AssetPath.normalize path)))) ∧
      ∀ (disk' : Disk) (index' : AssetIndex), Reached disk' index' →
        (∀ path, index'.contents? disk' path = index.contents? disk path) →
          ∀ order order', order.Perm index.entries → order'.Perm index'.entries →
            packFrom disk order = Pack.toBytes files ∧
              packFrom disk' order' = Pack.toBytes files := by
  have hpackable := h.packable
  refine ⟨(contents disk index).entries, hpackable.collect_eq, exists_toBytes_iff, ?_, ?_⟩
  · intro o o' size hempty hwrite hlength
    have hread := (Pack.read_of_writeTo hwrite hempty hlength).2
    refine ⟨_, hpackable.ofPack_eq hread, ?_, hpackable.serves_contents⟩
    rw [Dictionary.keys_map, contents, Dictionary.keys_map]
  · intro disk' index' h' hsame order order' horder horder'
    have hcontents : contents disk' index' = contents disk index := by
      refine Dictionary.ext_get? fun path => ?_
      rw [h'.packable.get?_contents, hpackable.get?_contents, hsame]
    unfold packFrom
    rw [hpackable.collectFrom_of_perm horder, h'.packable.collectFrom_of_perm horder', hcontents]
    exact ⟨rfl, rfl⟩

/-- A directory with a backslash in a name, one of its files replaced under
another spelling; and an index with the same contents that was filled by hand
the other way round. -/
theorem replaced_file_is_served_from_a_pack :
    let files : List (String × Node) := [("x\\y", .file [7]), ("z", .file [8, 9])]
    let disk := Disk.scratch.set ["tmp", "work", "d"] (.directory files)
    let other := embed (embed Dictionary.empty "z" [8, 9]) "x/y" [1]
    ∃ indexed o packed, ofDirectory disk "d" = .ok indexed ∧
      let index := indexed.embed ".\\x/y/" [1]
      Reached disk index ∧ index.collect disk = .ok [("x/y", [1]), ("z", [8, 9])] ∧
        Pack.writeTo {} [("x/y", [1]), ("z", [8, 9])] = (.ok 55, o) ∧
        ofPack o.contents = .ok packed ∧ packed.keys = ["x/y", "z"] ∧
        packed.fetch Disk.scratch "x\\y" = .ok (.ofBytes [1]) ∧
        packed.fetch Disk.scratch "./z" = .ok (.ofBytes [8, 9]) ∧
        packed.fetch Disk.scratch "./q/" = .error (.notFound "q") ∧
        packFrom disk index.entries.reverse = packFrom Disk.scratch other.entries := by
  intro files disk other
  let indexed : AssetIndex := ofEntries [("x\\y", .onDisk "d/x\\y"), ("z", .onDisk "d/z")]
  let index := indexed.embed ".\\x/y/" [1]
  let collected : List (String × Bytes) := [("x/y", [1]), ("z", [8, 9])]
  let pack : Bytes := [3, 0, 0, 0, 1, 0, 0, 0, 0, 0, 0, 0, 120, 47, 121, 1,
    1, 0, 0, 0, 2, 0, 0, 0, 0, 0, 0, 0, 122, 8, 9,
    77, 83, 80, 65, 67, 75, 0, 0, 2, 0, 0, 0, 31, 0, 0, 0, 0, 0, 0, 0, 85, 72, 101, 108]
  have hindexed : ofDirectory disk "d" = .ok indexed := by rfl
  have hreached : Reached disk index := by
    refine .embed (.directory hindexed fun path file hentry => ?_) _ _
    have hmem := List.mem_map.mp (Dictionary.mem_of_get?_ofList hentry)
    simp only [List.mem_cons, List.not_mem_nil, or_false] at hmem
    obtain ⟨entry, rfl | rfl, hfile⟩ := hmem
    · obtain ⟨-, hfile⟩ := Prod.mk.inj hfile
      obtain rfl := AssetEntry.onDisk.inj hfile
      exact ⟨[7], rfl⟩
    · obtain ⟨-, hfile⟩ := Prod.mk.inj hfile
      obtain rfl := AssetEntry.onDisk.inj hfile
      exact ⟨[8, 9], rfl⟩
  have hcollect : index.collect disk = .ok collected := by decide +kernel
  have hpack : Pack.toBytes collected = .ok pack := by decide +kernel
  obtain ⟨o, hwrite, hext⟩ := Pack.writeTo_of_room_eq_none (o := {}) hpack rfl
  have hcontents : o.contents = pack := hext.contents_of_contents_eq_nil rfl
  have hlength : o.contents.length < UInt64.size := by
    rw [hcontents]
    decide
  have hother : Reached Disk.scratch other := .embed (.embed .empty _ _) _ _
  have hcontents' : (contents Disk.scratch other).entries = (contents disk index).entries := by
    decide +kernel
  have hmaps : ∀ path, other.contents? Disk.scratch path = index.contents? disk path := by
    intro path
    rw [← hother.packable.get?_contents, ← hreached.packable.get?_contents, Dictionary.get?,
      hcontents', Dictionary.get?]
  obtain ⟨found, hfound, -, hserved, horder⟩ := packed_index_serves_the_same hreached
  obtain ⟨hpacks, hpacks'⟩ := horder Disk.scratch other hother hmaps _ _
    index.entries.reverse_perm (List.Perm.refl _)
  obtain rfl : collected = found := Except.ok.inj (hcollect.symm.trans hfound)
  obtain ⟨packed, hload, hkeys, hserves⟩ := hserved {} o _ rfl hwrite hlength
  have hsame : ∀ path, packed.fetch Disk.scratch path = index.fetch disk path := by
    intro path
    rcases (hserves path Disk.scratch).2 with ⟨bytes, hindex, hpacked⟩ | ⟨hindex, hpacked⟩
    · rw [hindex, hpacked]
    · rw [hindex, hpacked]
  have hreplaced : index.fetch disk "x\\y" = .ok (.ofBytes [1]) := by decide +kernel
  have hkept : index.fetch disk "./z" = .ok (.ofBytes [8, 9]) := by decide +kernel
  have hnone : index.fetch disk "./q/" = .error (.notFound "q") := by decide +kernel
  have hpaths : index.keys = ["x/y", "z"] := by decide +kernel
  exact ⟨indexed, o, packed, hindexed, hreached, hcollect, hwrite, hload, hkeys.trans hpaths,
    (hsame "x\\y").trans hreplaced, (hsame "./z").trans hkept, (hsame "./q/").trans hnone,
    hpacks.trans hpacks'.symm⟩

end AssetIndex

end SealedModules
