/-
# Settings documents

Reading a TOML document: lines that assign a value to a key, headers that
open a table or an element of an array of tables, blanks and comments.
`Document.read?` gives the table of a document and refuses a text that is
none, for whatever reason.

Values nest at most 79 deep and a dotted key has at most 79 parts.
-/
import SealedModules.Toml.Number
import SealedModules.Toml.Quoted

namespace SealedModules.Toml

/-- The text without spaces and tabs at its start. -/
def skipBlanks (cs : List Char) : List Char := cs.dropWhile fun c => c = ' ' || c = '\t'

/-- What follows a comment's text, up to the end of its line. -/
def skipComment (cs : List Char) : List Char := cs.dropWhile isPlain

/-- What follows a line break. -/
def skipBreak? : List Char → Option (List Char)
  | '\n' :: rest => some rest
  | '\r' :: '\n' :: rest => some rest
  | _ => none

/-- What follows the blanks and the comment at the end of a line. -/
def skipLineEnd? (cs : List Char) : Option (List Char) :=
  let cs := skipBlanks cs
  let cs := match cs with
    | '#' :: rest => skipComment rest
    | cs => cs
  if cs = [] then some [] else skipBreak? cs

/-- What follows blanks, line breaks and comments inside an array; `fuel` is
at least the number of lines. -/
def skipLines : (fuel : Nat) → List Char → Option (List Char)
  | 0, cs => some cs
  | fuel + 1, cs =>
    match skipBlanks cs with
    | '#' :: rest => do skipLines fuel (← skipBreak? (skipComment rest))
    | '\n' :: rest => skipLines fuel rest
    | '\r' :: rest => do skipLines fuel (← skipBreak? ('\r' :: rest))
    | cs => some cs

/-- How deep values may nest, and how many parts a dotted key may have. -/
def maxDepth : Nat := 79

/-! ## Keys -/

/-- Whether a character may stand in a bare key. -/
def isBare (c : Char) : Bool :=
  c.isDigit || ('a' ≤ c && c ≤ 'z') || ('A' ≤ c && c ≤ 'Z') || c = '_' || c = '-'

/-- One part of a key, bare or quoted on one line. -/
def readKeyPart : List Char → Option (String × List Char)
  | '"' :: rest => (readBasic rest).map fun (text, rest) => (String.ofList text, rest)
  | '\'' :: rest => (readLiteral rest).map fun (text, rest) => (String.ofList text, rest)
  | cs =>
    let bare := cs.takeWhile isBare
    if bare = [] then none else some (String.ofList bare, cs.drop bare.length)

/-- A key of parts with dots between them, and the blanks around it; `fuel`
is at least the number of parts. -/
def readKeyParts : (fuel : Nat) → List Char → Option (List String × List Char)
  | 0, _ => none
  | fuel + 1, cs => do
    let (part, rest) ← readKeyPart (skipBlanks cs)
    match skipBlanks rest with
    | '.' :: rest =>
      let (parts, rest) ← readKeyParts fuel rest
      return (part :: parts, rest)
    | rest => return ([part], rest)

/-- A key: the tables it goes through, its last part, and what follows. -/
def readKey (cs : List Char) : Option ((List String × String) × List Char) := do
  let (parts, rest) ← readKeyParts maxDepth cs
  return ((parts.dropLast, ← parts.getLast?), rest)

/-! ## Values -/

mutual

/-- A value at a place where arrays and tables may still nest `depth` deep;
`fuel` stays above the number of characters and bounds the number of steps. -/
def readValue (depth : Nat) : (fuel : Nat) → List Char → Option (Item × List Char)
  | 0, _ => none
  | fuel + 1, cs =>
    match cs with
    | '[' :: rest =>
      if depth = 0 then none
      else do
        let (items, rest) ← readArray (depth - 1) fuel rest
        return (.array items, rest)
    | '{' :: rest =>
      if depth = 0 then none
      else
        match skipBlanks rest with
        | '}' :: rest => some (.table .inlined [], rest)
        | rest => do
          let (entries, rest) ← readInline (depth - 1) fuel [] rest
          return (.table .inlined entries, rest)
    | 't' :: 'r' :: 'u' :: 'e' :: rest => some (.boolean true, rest)
    | 'f' :: 'a' :: 'l' :: 's' :: 'e' :: rest => some (.boolean false, rest)
    | c :: _ =>
      if c = '"' ∨ c = '\'' then do
        let (text, rest) ← readQuoted cs
        return (.text (String.ofList text), rest)
      else readNumber cs
    | [] => none

/-- The items of an array up to its closing bracket. -/
def readArray (depth : Nat) : (fuel : Nat) → List Char → Option (List Item × List Char)
  | 0, _ => none
  | fuel + 1, cs => do
    let cs ← skipLines fuel cs
    match cs with
    | ']' :: rest => return ([], rest)
    | cs =>
      let (item, rest) ← readValue depth fuel cs
      let rest ← skipLines fuel rest
      match rest with
      | ']' :: rest => return ([item], rest)
      | ',' :: rest =>
        let (items, rest) ← readArray depth fuel rest
        return (item :: items, rest)
      | _ => none

/-- The entries of an inline table up to its closing brace, after those made
before; there is at least one more. -/
def readInline (depth : Nat) : (fuel : Nat) → Entries → List Char →
    Option (Entries × List Char)
  | 0, _, _ => none
  | fuel + 1, entries, cs => do
    let ((path, key), rest) ← readKey cs
    let (item, rest) ← readValue depth fuel (skipBlanks (← skip? '=' rest))
    let entries ← entries.addDotted path key item
    match skipBlanks rest with
    | '}' :: rest => return (entries, rest)
    | ',' :: rest => readInline depth fuel entries rest
    | _ => none

end

/-! ## Documents -/

/-- A document read so far: its entries, and the path of the table that was
opened last. -/
structure Document where
  entries : Entries := []
  current : List String := []

namespace Document

/-- A header: its key and what follows its line. -/
def readHeader? (cs : List Char) (closing : List Char) :
    Option ((List String × String) × List Char) := do
  let (key, rest) ← readKey cs
  return (key, ← skipLineEnd? (← Text.dropStart? closing rest))

/-- The document after the statement at the start of `cs`, and what follows
the statement's line. -/
def readStatement (doc : Document) (cs : List Char) : Option (Document × List Char) :=
  match cs with
  | '[' :: '[' :: rest => do
    let ((path, key), rest) ← readHeader? rest [']', ']']
    return (⟨← doc.entries.openElement path key, path ++ [key]⟩, rest)
  | '[' :: rest => do
    let ((path, key), rest) ← readHeader? rest [']']
    return (⟨← doc.entries.openTable path key, path ++ [key]⟩, rest)
  | cs => do
    let ((path, key), rest) ← readKey cs
    let rest := skipBlanks (← skip? '=' rest)
    let (item, rest) ← readValue maxDepth (2 * rest.length + 2) rest
    return ({ doc with entries := ← doc.entries.addBelow doc.current path key item },
      ← skipLineEnd? rest)

/-- The document after all statements of `cs`; `fuel` is at least the number
of lines. -/
def readStatements : (fuel : Nat) → Document → List Char → Option Document
  | 0, _, _ => none
  | fuel + 1, doc, cs =>
    match skipBlanks cs with
    | [] => some doc
    | '#' :: rest => do readStatements fuel doc (← skipLineEnd? ('#' :: rest))
    | '\n' :: rest => readStatements fuel doc rest
    | '\r' :: rest => do readStatements fuel doc (← skipBreak? ('\r' :: rest))
    | cs => do
      let (doc, rest) ← readStatement doc cs
      readStatements fuel doc rest

/-- The table of a document; a byte order mark at its start is skipped. -/
def read? (text : String) : Option Entries :=
  let cs := match text.toList with
    | '\uFEFF' :: rest => rest
    | cs => cs
  (readStatements (cs.length + 1) {} cs).map (·.entries)

end Document

end SealedModules.Toml
