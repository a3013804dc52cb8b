/-
# Numbers and dates

Integers are decimal, or hexadecimal, octal or binary after `0x`, `0o` or
`0b`; digits may be separated by single underscores.  An integer has to be a
signed 64-bit number.  Numbers with a fraction or an exponent have to be
finite when positive; dates and times have to exist.

Each reader gives what it read and what follows it.
-/
import SealedModules.Text.Split
import SealedModules.Toml.Item

namespace SealedModules.Toml

/-- Further digits after a first one: each may follow one underscore. -/
def moreDigits (isDigit : Char → Bool) : List Char → List Char × List Char
  | [] => ([], [])
  | '_' :: c :: rest =>
    if isDigit c then ((moreDigits isDigit rest).map (c :: ·) id) else ([], '_' :: c :: rest)
  | c :: rest => if isDigit c then ((moreDigits isDigit rest).map (c :: ·) id) else ([], c :: rest)

/-- A run of digits with underscores between them. -/
def readDigits (isDigit : Char → Bool) : List Char → Option (List Char × List Char)
  | c :: rest => if isDigit c then some ((moreDigits isDigit rest).map (c :: ·) id) else none
  | [] => none

/-- The value of one digit in any base up to sixteen. -/
def digitValue (c : Char) : Nat :=
  if c.isDigit then c.toNat - 48 else if 'a' ≤ c then c.toNat - 87 else c.toNat - 55

/-- The number that digits spell in a base. -/
def valueOf (base : Nat) (digits : List Char) : Nat :=
  digits.foldl (fun n c => base * n + digitValue c) 0

/-- A hexadecimal digit. -/
def isHex (c : Char) : Bool := c.isDigit || ('a' ≤ c && c ≤ 'f') || ('A' ≤ c && c ≤ 'F')

/-- A sign, if there is one: whether it is a minus, and what follows. -/
def readSign : List Char → Bool × List Char
  | '-' :: rest => (true, rest)
  | '+' :: rest => (false, rest)
  | rest => (false, rest)

/-- The digits of a decimal integer: a zero stands alone. -/
def readDecimal : List Char → Option (List Char × List Char)
  | '0' :: rest => some (['0'], rest)
  | rest => readDigits Char.isDigit rest

/-- An integer in the range of 64-bit two's complement numbers. -/
def integer? (n : Int) : Option Item :=
  if Int64.minValue.toInt ≤ n ∧ n ≤ Int64.maxValue.toInt then some (.integer n) else none

/-- An integer in a base other than ten. -/
def readBased (base : Nat) (isDigit : Char → Bool) (cs : List Char) :
    Option (Item × List Char) := do
  let (digits, rest) ← readDigits isDigit cs
  return (← integer? (valueOf base digits), rest)

/-- An integer. -/
def readInteger : List Char → Option (Item × List Char)
  | '0' :: 'x' :: rest => readBased 16 isHex rest
  | '0' :: 'o' :: rest => readBased 8 (fun c => '0' ≤ c && c ≤ '7') rest
  | '0' :: 'b' :: rest => readBased 2 (fun c => c = '0' || c = '1') rest
  | cs => do
    let (isNegative, rest) := readSign cs
    let (digits, rest) ← readDecimal rest
    let n : Int := valueOf 10 digits
    return (← integer? (if isNegative then -n else n), rest)

/-! ## Numbers with a fraction or an exponent -/

/-- Whether `digits · 10 ^ exponent` rounds to more than any finite double. -/
def overflows (digits : List Char) (exponent : Int) : Bool :=
  let significant := digits.dropWhile (· = '0')
  let magnitude : Int := significant.length + exponent
  if significant = [] ∨ magnitude ≤ 308 then false
  else if magnitude > 310 then true
  else
    let n := valueOf 10 significant
    let limit := Nat.pow 2 1024 - Nat.pow 2 970
    if exponent ≥ 0 then decide (n * Nat.pow 10 exponent.toNat ≥ limit)
    else decide (n ≥ limit * Nat.pow 10 (-exponent).toNat)

/-- An exponent, if there is one: its value, whether it is there, and what
follows. -/
def readExponent : List Char → Option ((Int × Bool) × List Char)
  | c :: rest =>
    if c = 'e' ∨ c = 'E' then do
      let (isNegative, rest) := readSign rest
      let (digits, rest) ← readDigits Char.isDigit rest
      let n : Int := valueOf 10 digits
      return ((if isNegative then -n else n, true), rest)
    else some ((0, false), c :: rest)
  | [] => some ((0, false), [])

/-- A fraction, if there is one: its digits and what follows. -/
def readFraction : List Char → Option (List Char × List Char)
  | '.' :: rest => readDigits Char.isDigit rest
  | rest => some ([], rest)

/-- What follows one of the special numbers `inf` and `nan`. -/
def readSpecial? : List Char → Option (List Char)
  | 'i' :: 'n' :: 'f' :: rest => some rest
  | 'n' :: 'a' :: 'n' :: rest => some rest
  | _ => none

/-- A number with a fraction, an exponent or both. -/
def readFloat (cs : List Char) : Option (Item × List Char) := do
  let (isNegative, rest) := readSign cs
  match readSpecial? rest with
  | some rest => return (.float, rest)
  | none =>
    let (whole, rest) ← readDecimal rest
    let (fraction, rest) ← readFraction rest
    let ((exponent, isThere), rest) ← readExponent rest
    if fraction = [] ∧ !isThere then none
    if !isNegative && overflows (whole ++ fraction) (exponent - fraction.length) then none
    return (.float, rest)

/-! ## Dates and times -/

/-- A number of exactly `count` digits in a range. -/
def readFixed (count low high : Nat) (cs : List Char) : Option (Nat × List Char) :=
  let digits := cs.take count
  if digits.length = count ∧ digits.all Char.isDigit then
    let n := valueOf 10 digits
    if low ≤ n ∧ n ≤ high then some (n, cs.drop count) else none
  else none

/-- What follows a character that has to be there. -/
def skip? (c : Char) : List Char → Option (List Char)
  | d :: rest => if d = c then some rest else none
  | [] => none

/-- The number of days in a month. -/
def daysInMonth (year month : Nat) : Nat :=
  if month = 2 then
    if year % 4 = 0 ∧ (year % 100 ≠ 0 ∨ year % 400 = 0) then 29 else 28
  else if month = 4 ∨ month = 6 ∨ month = 9 ∨ month = 11 then 30
  else 31

/-- What follows a date. -/
def readDate (cs : List Char) : Option (List Char) := do
  let (year, cs) ← readFixed 4 0 9999 cs
  let (month, cs) ← readFixed 2 1 12 (← skip? '-' cs)
  let (_, cs) ← readFixed 2 1 (daysInMonth year month) (← skip? '-' cs)
  return cs

/-- What follows a time of day; a leap second is allowed. -/
def readTime (cs : List Char) : Option (List Char) := do
  let (_, cs) ← readFixed 2 0 23 cs
  let (_, cs) ← readFixed 2 0 59 (← skip? ':' cs)
  let (_, cs) ← readFixed 2 0 60 (← skip? ':' cs)
  match cs with
  | '.' :: c :: rest => if c.isDigit then some (rest.dropWhile Char.isDigit) else some cs
  | _ => some cs

/-- What follows an offset from universal time, if there is one. -/
def skipOffset (cs : List Char) : List Char :=
  match cs with
  | 'Z' :: rest => rest
  | 'z' :: rest => rest
  | c :: rest =>
    if c = '+' ∨ c = '-' then
      (do
        let (_, rest) ← readFixed 2 0 23 rest
        let (_, rest) ← readFixed 2 0 59 (← skip? ':' rest)
        return rest).getD cs
    else cs
  | [] => cs

/-- What follows a date, a time, or both. -/
def readMoment (cs : List Char) : Option (Item × List Char) :=
  match readDate cs with
  | none => (readTime cs).map fun rest => (.moment, rest)
  | some (c :: rest) =>
    if c = 'T' ∨ c = 't' ∨ c = ' ' then
      match readTime rest with
      | some rest => some (.moment, skipOffset rest)
      | none => some (.moment, c :: rest)
    else some (.moment, c :: rest)
  | some [] => some (.moment, [])

/-- A date, a number with a fraction, or an integer. -/
def readNumber (cs : List Char) : Option (Item × List Char) :=
  match readMoment cs with
  | some found => some found
  | none =>
    match readFloat cs with
    | some found => some found
    | none => readInteger cs

end SealedModules.Toml
