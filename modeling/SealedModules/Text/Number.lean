/-
# Numbers as text

Reading a signed 64-bit decimal, and laying out numbers in a column or with
a fixed count of hexadecimal digits.
-/

namespace SealedModules.Text

/-- The value of a non-empty run of ASCII digits. -/
def readNat? (cs : List Char) : Option Nat :=
  if cs ≠ [] ∧ cs.all Char.isDigit then
    some (cs.foldl (fun n c => 10 * n + (c.toNat - 48)) 0)
  else none

/-- The value of an ASCII decimal with at most one sign in front. -/
def readInt? : List Char → Option Int
  | '-' :: digits => (readNat? digits).map fun n => -(n : Int)
  | '+' :: digits => (readNat? digits).map fun n => (n : Int)
  | digits => (readNat? digits).map fun n => (n : Int)

/-- A decimal in the range of 64-bit two's complement numbers. -/
def readInt64? (cs : List Char) : Option Int64 :=
  match readInt? cs with
  | some n =>
    if Int64.minValue.toInt ≤ n ∧ n ≤ Int64.maxValue.toInt then some (Int64.ofInt n) else none
  | none => none

/-- Spaces that fill `text` up to `width` characters. -/
def padding (width : Nat) (text : String) : String :=
  String.ofList (List.replicate (width - text.length) ' ')

/-- The text at the left of a column `width` characters wide. -/
def alignLeft (width : Nat) (text : String) : String := text ++ padding width text

/-- The text at the right of a column `width` characters wide. -/
def alignRight (width : Nat) (text : String) : String := padding width text ++ text

/-- A hexadecimal digit, in lower case. -/
def hexDigit (n : Nat) : Char :=
  if n < 10 then Char.ofNat (48 + n) else Char.ofNat (87 + n)

/-- The last `width` hexadecimal digits of `n`. -/
def hexDigits : (width : Nat) → (n : Nat) → List Char
  | 0, _ => []
  | width + 1, n => hexDigits width (n / 16) ++ [hexDigit (n % 16)]

/-- A 32-bit number as `0x` and eight digits. -/
def hex32 (n : Nat) : String := "0x" ++ String.ofList (hexDigits 8 n)

end SealedModules.Text
