/-
# Compiled modules and their binary form

A compiled module either has a value (or none) or fails with a message when
it runs.  It keeps the name of its chunk and its text.

Its binary form is a tag, a version, an optional value and three fields that
carry their lengths, with nothing after them.  It is written in small
pieces (`pieces`); `ofBytes?` reads it back.  An absent message is written
as an empty field, so an empty message is not told from none.
-/
import SealedModules.Bytes.Word
import SealedModules.Text.Utf8

namespace SealedModules

/-- A module the interpreter can run. -/
structure CompiledModule where
  value : Option Int64
  failure : Option String
  chunk : String
  text : Bytes
deriving DecidableEq

namespace CompiledModule

/-- The bytes the binary form opens with: escape and `TNY`. -/
def tag : Bytes := [0x1B, 0x54, 0x4E, 0x59]

/-- The version of the binary form. -/
def version : UInt8 := 1

/-- A value written as eight bytes of two's complement. -/
def valueBytes (v : Int64) : Bytes := Word.encode 8 v.toUInt64.toNat

/-- The value that eight bytes stand for. -/
def valueOfBytes (bytes : Bytes) : Int64 := (UInt64.ofNat (Word.decode bytes)).toInt64

/-- The pieces of a field: its length, then its bytes a hundred at a time. -/
def fieldPieces (data : Bytes) : List Bytes := Word.encode 4 data.length :: data.chunks 100

/-- The pieces of an optional value, after a byte that tells whether it is
there. -/
def valuePieces : Option Int64 → List Bytes
  | some v => [[1], valueBytes v]
  | none => [[0]]

/-- The binary form in the pieces it is written in. -/
def pieces (m : CompiledModule) : List Bytes :=
  [tag, [version]] ++ valuePieces m.value ++
    fieldPieces (Utf8.encode (m.failure.getD "")) ++
    fieldPieces (Utf8.encode m.chunk) ++
    fieldPieces m.text

/-- The binary form. -/
def toBytes (m : CompiledModule) : Bytes := m.pieces.flatten

/-- A field at the start of `bytes`, and what follows it. -/
def readField? (bytes : Bytes) : Option (Bytes × Bytes) := do
  let (length, rest) ← Word.read? 4 bytes
  if rest.length < length then none else some (rest.take length, rest.drop length)

/-- An optional value at the start of `bytes`, and what follows it. -/
def readValue? : Bytes → Option (Option Int64 × Bytes)
  | 0 :: rest => some (none, rest)
  | 1 :: rest =>
    if rest.length < 8 then none else some (some (valueOfBytes (rest.take 8)), rest.drop 8)
  | _ => none

/-- The module with the given binary form. -/
def ofBytes? (bytes : Bytes) : Option CompiledModule := do
  let head := tag ++ [version]
  if bytes.take head.length ≠ head then none
  let (value, rest) ← readValue? (bytes.drop head.length)
  let (failure, rest) ← readField? rest
  let (chunk, rest) ← readField? rest
  let (text, rest) ← readField? rest
  if rest ≠ [] then none
  return {
    value
    failure := if failure = [] then none else some (Utf8.decode failure)
    chunk := Utf8.decode chunk
    text }

end CompiledModule

end SealedModules
