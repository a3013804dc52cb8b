/-
# Splitting a text at a separator

`split sep` cuts a text at every `sep`, keeping empty pieces; `join sep`
puts pieces together with one `sep` between neighbours.  Lines of a script
and components of a path are both read this way.
-/

namespace SealedModules.Text

/-- The pieces between the separators, never none. -/
def split (sep : Char) : List Char → List (List Char)
  | [] => [[]]
  | c :: cs =>
    if c = sep then [] :: split sep cs
    else
      match split sep cs with
      | [] => [[c]]
      | piece :: pieces => (c :: piece) :: pieces

/-- The pieces with one separator between neighbours. -/
def join (sep : Char) : List (List Char) → List Char
  | [] => []
  | [piece] => piece
  | piece :: pieces => piece ++ sep :: join sep pieces

/-- What follows `start` in a text that begins with it. -/
def dropStart? : (start : List Char) → List Char → Option (List Char)
  | [], cs => some cs
  | _ :: _, [] => none
  | s :: start, c :: cs => if s = c then dropStart? start cs else none

/-- What comes before `ending` in a text that ends with it. -/
def dropEnd? (ending cs : List Char) : Option (List Char) :=
  (dropStart? ending.reverse cs.reverse).map List.reverse

/-- Whether two dots stand side by side somewhere in a text. -/
def hasDoubleDot : List Char → Bool
  | '.' :: '.' :: _ => true
  | _ :: cs => hasDoubleDot cs
  | [] => false

/-- The text with every `old` turned into `new`. -/
def replace (old new : Char) (cs : List Char) : List Char :=
  cs.map fun c => if c = old then new else c

end SealedModules.Text
