/-
# The asset index

An index maps normalized asset paths to entries: bytes held in memory, or a
file on disk that is opened when it is asked for.  It is filled by hand, from
a directory, or from a pack, and can itself be collected into a pack.
-/
import SealedModules.Asset.Pack
import SealedModules.Asset.Path
import SealedModules.Asset.Source
import SealedModules.Dictionary

namespace SealedModules

/-- Where the bytes of an asset are. -/
inductive AssetEntry where
  | onDisk (path : String)
  | embedded (bytes : Bytes)
deriving DecidableEq, Repr

/-- Asset entries under their normalized paths. -/
abbrev AssetIndex := Dictionary AssetEntry

namespace AssetIndex

/-- The index of entries under paths in any spelling, later ones replacing
earlier ones. -/
def ofEntries (entries : List (String × AssetEntry)) : AssetIndex :=
  Dictionary.ofList (entries.map fun entry => (AssetPath.normalize entry.1, entry.2))

/-- The index with an embedded asset. -/
def embed (index : AssetIndex) (path : String) (bytes : Bytes) : AssetIndex :=
  index.insert (AssetPath.normalize path) (.embedded bytes)

/-- The index of the files in a directory and those below it. -/
def ofDirectory (disk : Disk) (root : String) : Except Fault AssetIndex := do
  let files ← disk.listFiles root
  return ofEntries (files.map fun names =>
    (Path.ofNames names, .onDisk (Path.append root (Path.ofNames names))))

/-- The index of the entries of a pack. -/
def ofPack (bytes : Bytes) : Except AssetError AssetIndex := do
  let entries ← Pack.read bytes
  return ofEntries (entries.map fun entry => (entry.1, .embedded entry.2))

/-- The index of the entries of a pack on disk. -/
def ofPackFile (disk : Disk) (path : String) : Except AssetError AssetIndex :=
  match disk.fileBytes path with
  | .error fault => .error (.failed fault)
  | .ok bytes => ofPack bytes

/-- Whether there is an asset at a path in any spelling. -/
def holds (index : AssetIndex) (path : String) : Bool :=
  index.contains (AssetPath.normalize path)

/-- The asset at a path in any spelling. -/
def fetch (index : AssetIndex) (disk : Disk) (path : String) : Except AssetError Asset :=
  match index.get? (AssetPath.normalize path) with
  | none => .error (.notFound (AssetPath.normalize path))
  | some (.embedded bytes) => .ok ⟨bytes.length, { rest := bytes }⟩
  | some (.onDisk file) =>
    match disk.openFile file with
    | .error fault => .error (.failed fault)
    | .ok (length, reader) => .ok ⟨length, reader⟩

/-- The bytes of an entry. -/
def entryBytes (disk : Disk) : AssetEntry → Except Fault Bytes
  | .embedded bytes => .ok bytes
  | .onDisk file => disk.fileBytes file

/-- All entries with their bytes, in the order of their paths; one that
cannot be read fails them all. -/
def collect (index : AssetIndex) (disk : Disk) : Except Fault (List (String × Bytes)) :=
  index.entries.mapM fun entry => (entryBytes disk entry.2).map fun bytes => (entry.1, bytes)

/-- The index as a source of assets. -/
def toSource (index : AssetIndex) : AssetSource where
  contains := index.holds
  fetch := index.fetch

end AssetIndex

end SealedModules
