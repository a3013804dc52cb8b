/-
# UTF-8, written and read

Texts are written as UTF-8 by `encode`.  Bytes from outside need not be
UTF-8: `decode` reads them all the same and puts U+FFFD in the place of
every maximal invalid part, that is, of the longest start of a well-formed
sequence that the bytes then fail to complete, or of one byte if there is
none.  `decode?` refuses what is not UTF-8.

The decoder is a machine that takes one byte at a time.  Between two bytes
it owes nothing (`none`) or is inside a sequence (`some p`), with the bits
collected so far and the range in which the next byte has to lie.
-/
import SealedModules.Bytes

namespace SealedModules.Utf8

/-- The UTF-8 bytes of a text. -/
def encode (s : String) : Bytes :=
  s.toList.flatMap String.utf8EncodeChar

/-- A multi-byte sequence under way: its bits so far, the number of bytes
still to come after the next one, and the range of the next one. -/
structure Pending where
  bits : Nat
  later : Nat
  low : UInt8
  high : UInt8
deriving DecidableEq, Repr

/-- U+FFFD, the character that stands for an invalid part. -/
def replacement : Char := '\uFFFD'

/-- The first byte of a character: the characters it completes and the
sequence it opens.  The ranges of the second byte leave out overlong forms,
surrogates and everything above U+10FFFF. -/
def start (b : UInt8) : List Char × Option Pending :=
  if b < 0x80 then ([Char.ofNat b.toNat], none)
  else if b < 0xC2 then ([replacement], none)
  else if b < 0xE0 then ([], some ⟨b.toNat - 0xC0, 0, 0x80, 0xBF⟩)
  else if b = 0xE0 then ([], some ⟨0, 1, 0xA0, 0xBF⟩)
  else if b = 0xED then ([], some ⟨0xD, 1, 0x80, 0x9F⟩)
  else if b < 0xF0 then ([], some ⟨b.toNat - 0xE0, 1, 0x80, 0xBF⟩)
  else if b = 0xF0 then ([], some ⟨0, 2, 0x90, 0xBF⟩)
  else if b < 0xF4 then ([], some ⟨b.toNat - 0xF0, 2, 0x80, 0xBF⟩)
  else if b = 0xF4 then ([], some ⟨4, 2, 0x80, 0x8F⟩)
  else ([replacement], none)

/-- One byte inside the sequence `p`: it continues the sequence if it lies
in the range asked for, and otherwise ends an invalid part and starts anew. -/
def extend (p : Pending) (b : UInt8) : List Char × Option Pending :=
  if p.low ≤ b ∧ b ≤ p.high then
    let bits := p.bits * 64 + (b.toNat - 0x80)
    match p.later with
    | 0 => ([Char.ofNat bits], none)
    | later + 1 => ([], some ⟨bits, later, 0x80, 0xBF⟩)
  else
    (replacement :: (start b).1, (start b).2)

/-- One byte in either state. -/
def step : Option Pending → UInt8 → List Char × Option Pending
  | none, b => start b
  | some p, b => extend p b

/-- The characters of `bs`, read from a given state; a sequence cut off by
the end is an invalid part. -/
def decodeFrom : Option Pending → Bytes → List Char
  | none, [] => []
  | some _, [] => [replacement]
  | state, b :: bs => (step state b).1 ++ decodeFrom (step state b).2 bs

/-- The characters of a byte string, invalid parts replaced. -/
def decodeChars (bs : Bytes) : List Char := decodeFrom none bs

/-- The text of a byte string, invalid parts replaced. -/
def decode (bs : Bytes) : String := String.ofList (decodeChars bs)

/-- The text of a byte string that is UTF-8 throughout: such a string is
what its text is written as. -/
def decode? (bs : Bytes) : Option String :=
  if encode (decode bs) = bs then some (decode bs) else none

end SealedModules.Utf8
