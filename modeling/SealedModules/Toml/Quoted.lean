/-
# Quoted texts

TOML has four kinds of quoted text.  Between double quotes a backslash
begins an escape, between single quotes every character stands for itself,
and either kind may be tripled to run over several lines.  Control
characters other than the tab are allowed in none of them.

Each reader below starts after the opening quotes and gives the text and
what follows the closing ones.
-/

namespace SealedModules.Toml

/-- Whether a character may stand unescaped in a quoted text or a comment. -/
def isPlain (c : Char) : Bool := c = '\t' || (32 ≤ c.toNat && c.toNat ≠ 127)

/-- The character with the number that hexadecimal digits spell. -/
def unicode? (digits : List Char) : Option Char := do
  let n ← digits.foldlM (fun n c =>
    if c.isDigit then some (16 * n + (c.toNat - 48))
    else if 'a' ≤ c ∧ c ≤ 'f' then some (16 * n + (c.toNat - 87))
    else if 'A' ≤ c ∧ c ≤ 'F' then some (16 * n + (c.toNat - 55))
    else none) 0
  if n.isValidChar then some (Char.ofNat n) else none

/-- The escape of one letter. -/
def escape? : Char → Option Char
  | 'b' => some '\x08'
  | 't' => some '\t'
  | 'n' => some '\n'
  | 'f' => some '\x0c'
  | 'r' => some '\r'
  | '"' => some '"'
  | '\\' => some '\\'
  | _ => none

/-- A text with one more character in front. -/
def consText (c : Char) : Option (List Char × List Char) → Option (List Char × List Char)
  | some (text, rest) => some (c :: text, rest)
  | none => none

/-- A text between single double quotes. -/
def readBasic : List Char → Option (List Char × List Char)
  | [] => none
  | '"' :: rest => some ([], rest)
  | '\\' :: 'u' :: a :: b :: c :: d :: rest => do
    consText (← unicode? [a, b, c, d]) (readBasic rest)
  | '\\' :: 'U' :: a :: b :: c :: d :: e :: f :: g :: h :: rest => do
    consText (← unicode? [a, b, c, d, e, f, g, h]) (readBasic rest)
  | '\\' :: c :: rest => do consText (← escape? c) (readBasic rest)
  | c :: rest => if isPlain c ∧ c ≠ '\\' then consText c (readBasic rest) else none

/-- A text between single quotes. -/
def readLiteral : List Char → Option (List Char × List Char)
  | [] => none
  | '\'' :: rest => some ([], rest)
  | c :: rest => if isPlain c then consText c (readLiteral rest) else none

/-- The end of a text of several lines after its three closing quotes: up to
two more of them belong to the text. -/
def closeLong (quote : Char) : List Char → List Char × List Char
  | a :: b :: rest =>
    if a = quote then
      if b = quote then ([quote, quote], rest) else ([quote], b :: rest)
    else ([], a :: b :: rest)
  | [a] => if a = quote then ([quote], []) else ([], [a])
  | [] => ([], [])

/-- Where a text of several lines stands with regard to a backslash at the
end of a line, which swallows all blanks up to the next text. -/
inductive LineEnd where
  | outside
  /-- after the backslash, before the line has ended -/
  | sameLine
  /-- in the blanks that follow -/
  | swallowing
deriving DecidableEq, Repr

/-- A text of several lines between triple double quotes. -/
def readLongBasic : LineEnd → List Char → Option (List Char × List Char)
  | _, [] => none
  | .outside, '\n' :: rest => consText '\n' (readLongBasic .outside rest)
  | .outside, '\r' :: '\n' :: rest => consText '\n' (readLongBasic .outside rest)
  | _, '\n' :: rest => readLongBasic .swallowing rest
  | _, '\r' :: '\n' :: rest => readLongBasic .swallowing rest
  | .sameLine, c :: rest => if c = ' ' ∨ c = '\t' then readLongBasic .sameLine rest else none
  | _, '"' :: '"' :: '"' :: rest => some (closeLong '"' rest)
  | _, '\\' :: 'u' :: a :: b :: c :: d :: rest => do
    consText (← unicode? [a, b, c, d]) (readLongBasic .outside rest)
  | _, '\\' :: 'U' :: a :: b :: c :: d :: e :: f :: g :: h :: rest => do
    consText (← unicode? [a, b, c, d, e, f, g, h]) (readLongBasic .outside rest)
  | _, '\\' :: '\r' :: '\n' :: rest => readLongBasic .swallowing rest
  | _, '\\' :: c :: rest =>
    if c = '\n' then readLongBasic .swallowing rest
    else if c = ' ' ∨ c = '\t' then readLongBasic .sameLine rest
    else
      match escape? c with
      | some c => consText c (readLongBasic .outside rest)
      | none => none
  | state, c :: rest =>
    if state = .swallowing ∧ (c = ' ' ∨ c = '\t') then readLongBasic .swallowing rest
    else if isPlain c ∧ c ≠ '\\' then consText c (readLongBasic .outside rest)
    else none

/-- A text of several lines between triple single quotes. -/
def readLongLiteral : List Char → Option (List Char × List Char)
  | [] => none
  | '\'' :: '\'' :: '\'' :: rest => some (closeLong '\'' rest)
  | '\n' :: rest => consText '\n' (readLongLiteral rest)
  | '\r' :: '\n' :: rest => consText '\n' (readLongLiteral rest)
  | c :: rest => if isPlain c then consText c (readLongLiteral rest) else none

/-- The text after a line break that directly follows opening triple quotes. -/
def dropFirstBreak : List Char → List Char
  | '\n' :: rest => rest
  | '\r' :: '\n' :: rest => rest
  | rest => rest

/-- A quoted text of any kind, with its quotes. -/
def readQuoted : List Char → Option (List Char × List Char)
  | '"' :: '"' :: '"' :: rest => readLongBasic .outside (dropFirstBreak rest)
  | '\'' :: '\'' :: '\'' :: rest => readLongLiteral (dropFirstBreak rest)
  | '"' :: rest => readBasic rest
  | '\'' :: rest => readLiteral rest
  | _ => none

end SealedModules.Toml
