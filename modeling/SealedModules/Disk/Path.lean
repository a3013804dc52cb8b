/-
# Paths as text

A path is a text of names with slashes between them; a leading slash makes
it absolute.  `append` puts a path after another the way a directory is
entered: an absolute path replaces what is before it.  `components` lists
what a path says, leaving out what says nothing: repeated slashes, and dots
that stand for the current directory anywhere but at the start.  `nesting`
lists the paths of the places a path lies in, and those keep such segments,
since they count for the length of a path.
-/
import SealedModules.Text.Split

namespace SealedModules.Path

/-- Whether a path starts at the root. -/
def isAbsolute (path : String) : Bool := path.toList.head? = some '/'

/-- The path `child` seen from `base`. -/
def append (base child : String) : String :=
  if isAbsolute child ∨ base = "" then child
  else if base.toList.getLast? = some '/' then base ++ child
  else base ++ "/" ++ child

/-- The pieces of a path between its slashes. -/
def segments (path : String) : List String := (Text.split '/' path.toList).map String.ofList

/-- One part of what a path says. -/
inductive Component where
  | root
  | here
  | parent
  | name (text : String)
deriving DecidableEq, Repr

/-- The component a segment after the first stands for, if any. -/
def Component.ofSegment? (segment : String) : Option Component :=
  if segment = "" ∨ segment = "." then none
  else if segment = ".." then some .parent
  else some (.name segment)

/-- What a path says, in order. -/
def components (path : String) : List Component :=
  let rest := (segments path).filterMap Component.ofSegment?
  if isAbsolute path then .root :: rest
  else if (segments path).head? = some "." then .here :: rest
  else rest

/-- Names with slashes between them. -/
def ofNames (names : List String) : String :=
  String.ofList (Text.join '/' (names.map String.toList))

/-! ## The places a path lies in -/

/-- Whether a segment after the first says nothing. -/
def isSilent (segment : String) : Bool := segment = "" || segment = "."

/-- The path that starts with the segment `first`, and the paths of the
places it lies in, the innermost first; `rest` are the segments after the
first, the last one in front.  Of the segments that say nothing only those
between two others are kept. -/
def nestingFrom (first : String) : (rest : List String) → List String
  | [] => if first = "" then ["/"] else [first]
  | segment :: rest =>
    if isSilent segment then nestingFrom first rest
    else ofNames (first :: (segment :: rest).reverse) :: nestingFrom first rest

/-- A path and the paths of the places it lies in, the innermost first, as
far as the path names them. -/
def nesting (path : String) : List String :=
  match segments path with
  | [] => []
  | first :: rest => if path = "" then [] else nestingFrom first rest.reverse

end SealedModules.Path
