/-
# Asset paths

Assets are found under virtual paths with forward slashes.  `normalize`
gives the spelling that an asset is stored and looked up under.  `join` puts
a module's path below a root and resolves dots; two dots never lead above
the top of the store.
-/
import SealedModules.Text.Split

namespace SealedModules.AssetPath

/-- The text without the `./` at its start, however often it stands there. -/
def dropHere : List Char → List Char
  | '.' :: '/' :: cs => dropHere cs
  | cs => cs

/-- The text without the slashes at its end. -/
def dropSlashes (cs : List Char) : List Char := (cs.reverse.dropWhile (· = '/')).reverse

/-- The spelling an asset is stored under: forward slashes only, no `./` at
the start, no slash at the end. -/
def normalize (path : String) : String :=
  String.ofList (dropSlashes (dropHere (Text.replace '\\' '/' path.toList)))

/-- One segment of a path put on a stack of names, the last on top: two dots
take the top away, one dot or nothing changes nothing. -/
def push (stack : List (List Char)) (segment : List Char) : List (List Char) :=
  if segment = [] ∨ segment = ['.'] then stack
  else if segment = ['.', '.'] then stack.tail
  else segment :: stack

/-- The names left when the segments of a path are put on a stack, in order. -/
def resolve (segments : List (List Char)) : List (List Char) := (segments.foldl push []).reverse

/-- The segments of a path, with either kind of slash between them. -/
def segments (path : String) : List (List Char) :=
  Text.split '/' (Text.replace '\\' '/' path.toList)

/-- The path `relative` below `root`; no root and an empty one are the same. -/
def join (root : Option String) (relative : String) : String :=
  let whole :=
    match root with
    | some root => if root = "" then relative else root ++ "/" ++ relative
    | none => relative
  String.ofList (Text.join '/' (resolve (segments whole)))

end SealedModules.AssetPath
