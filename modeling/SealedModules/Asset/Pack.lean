/-
# Packs

A pack is one file with many assets: a section of entries, then a trailer.
An entry is the length of its path in four bytes, the length of its data in
eight, the path and the data; the trailer holds eight bytes of magic, the
number of entries, the length of the section and its checksum.

`build` writes a pack and `read` reads one.  Reading trusts no number of
the file: the trailer has to fit the section exactly, the checksum has to be
the section's, every entry has to lie inside it, and their count has to be
the declared one.
-/
import SealedModules.Asset.Error
import SealedModules.Bytes.Word
import SealedModules.Digest.Crc32
import SealedModules.Stream.Output
import SealedModules.Text.Utf8

namespace SealedModules.Pack

/-- The bytes a trailer opens with: `MSPACK` and two zeros. -/
def magic : Bytes := [0x4D, 0x53, 0x50, 0x41, 0x43, 0x4B, 0x00, 0x00]

/-- The length of a trailer. -/
def trailerSize : Nat := 24

/-- The length of what precedes an entry's path. -/
def entryHeaderSize : Nat := 12

/-- What a pack ends with. -/
structure Trailer where
  magic : Bytes
  entryCount : UInt32
  sectionLength : UInt64
  checksum : UInt32
deriving DecidableEq, Repr

namespace Trailer

/-- Whether the trailer opens with the magic. -/
def isValid (t : Trailer) : Bool := t.magic = Pack.magic

/-- The trailer written out. -/
def toBytes (t : Trailer) : Bytes :=
  t.magic ++ Word.encode 4 t.entryCount.toNat ++ Word.encode 8 t.sectionLength.toNat ++
    Word.encode 4 t.checksum.toNat

/-- The valid trailer at the start of a byte string. -/
def ofBytes? (bytes : Bytes) : Option Trailer :=
  if bytes.length < trailerSize then none
  else
    let trailer : Trailer := {
      magic := bytes.take 8
      entryCount := UInt32.ofNat (Word.decode ((bytes.drop 8).take 4))
      sectionLength := UInt64.ofNat (Word.decode ((bytes.drop 12).take 8))
      checksum := UInt32.ofNat (Word.decode ((bytes.drop 20).take 4)) }
    if trailer.isValid then some trailer else none

end Trailer

/-- The checksum of an entry section. -/
def checksum (entries : Bytes) : UInt32 := UInt32.ofBitVec (Crc32.checksum entries)

/-! ## Writing -/

/-- An entry written out. -/
def encodeEntry (path data : Bytes) : Bytes :=
  Word.encode 4 path.length ++ Word.encode 8 data.length ++ path ++ data

/-- The section that holds the given entries. -/
def encodeSection (entries : List (Bytes × Bytes)) : Bytes :=
  entries.flatMap fun entry => encodeEntry entry.1 entry.2

/-- The trailer that fits a section with a number of entries. -/
def trailerOf (entryCount : Nat) (entries : Bytes) : Trailer where
  magic := magic
  entryCount := UInt32.ofNat entryCount
  sectionLength := UInt64.ofNat entries.length
  checksum := checksum entries

/-- The section and the trailer for named files, in order; a path or a list
too long for its length field is refused. -/
def build (files : List (String × Bytes)) : Except Fault (Bytes × Bytes) :=
  if files.any fun file => file.1.utf8ByteSize ≥ UInt32.size then .error .assetPathTooLong
  else if files.length ≥ UInt32.size then .error .tooManyAssets
  else
    let entries := encodeSection (files.map fun file => (Utf8.encode file.1, file.2))
    .ok (entries, (trailerOf files.length entries).toBytes)

/-- The pack of named files. -/
def toBytes (files : List (String × Bytes)) : Except Fault Bytes := do
  let (entries, trailer) ← build files
  return entries ++ trailer

/-- The pack of named files written to an output: its length, or the fault
that the output gave. -/
def writeTo (output : Output) (files : List (String × Bytes)) : Except Fault Nat × Output :=
  match build files with
  | .error fault => (.error fault, output)
  | .ok (entries, trailer) =>
    match Writer.writeAll output entries with
    | (.error fault, output) => (.error fault, output)
    | (.ok (), output) =>
      match Writer.writeAll output trailer with
      | (.error fault, output) => (.error fault, output)
      | (.ok (), output) => (.ok (entries.length + trailerSize), output)

/-! ## Reading -/

/-- The entries of a section whose first byte stands at `offset`. -/
def readEntries (offset : Nat) (bytes : Bytes) : Except PackFlaw (List (Bytes × Bytes)) :=
  if bytes = [] then .ok []
  else if bytes.length < entryHeaderSize then .error (.truncatedHeader offset)
  else
    let pathLength := Word.decode (bytes.take 4)
    let dataLength := Word.decode ((bytes.drop 4).take 8)
    let body := bytes.drop entryHeaderSize
    let size := pathLength + dataLength
    if body.length < size then .error (.overrun (offset + entryHeaderSize))
    else
      match readEntries (offset + entryHeaderSize + size) (body.drop size) with
      | .error flaw => .error flaw
      | .ok entries => .ok ((body.take pathLength, (body.drop pathLength).take dataLength) :: entries)
termination_by bytes.length
decreasing_by
  simp only [entryHeaderSize, List.length_drop] at *
  omega

/-- The entries of a pack with their paths as bytes. -/
def readRaw (bytes : Bytes) : Except AssetError (List (Bytes × Bytes)) :=
  if bytes.length < trailerSize then .error (.invalidPack .tooShort)
  else
    let sectionLength := bytes.length - trailerSize
    match Trailer.ofBytes? (bytes.drop sectionLength) with
    | none => .error (.invalidPack .badMagic)
    | some trailer =>
      if trailer.sectionLength.toNat ≠ sectionLength then
        .error (.invalidPack (.sectionLength sectionLength trailer.sectionLength.toNat))
      else
        let entries := bytes.take sectionLength
        let actual := checksum entries
        if actual ≠ trailer.checksum then
          .error (.checksumMismatch trailer.checksum.toNat actual.toNat)
        else
          match readEntries 0 entries with
          | .error flaw => .error (.invalidPack flaw)
          | .ok found =>
            if found.length ≠ trailer.entryCount.toNat then
              .error (.invalidPack (.entryCount found.length trailer.entryCount.toNat))
            else .ok found

/-- The entries of a pack; a path that is not UTF-8 is read with its invalid
parts replaced. -/
def read (bytes : Bytes) : Except AssetError (List (String × Bytes)) :=
  (readRaw bytes).map fun entries => entries.map fun entry => (Utf8.decode entry.1, entry.2)

end SealedModules.Pack
