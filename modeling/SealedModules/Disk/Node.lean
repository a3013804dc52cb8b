/-
# Trees of files

What a disk holds is a tree: files and directories, the entries of a
directory under their names.  A place in the tree is a `Location`, the names
that lead to it from the top; `at?` looks there and `put` places a node
there.  Placing makes the directories on the way, so what was placed is found
(`at?_put`) whatever the tree was.
-/
import SealedModules.Bytes

namespace SealedModules

/-- The names that lead from the root to a place. -/
abbrev Location := List String

/-- What there is at a place. -/
inductive Node where
  | file (contents : Bytes)
  | directory (entries : List (String × Node))

namespace Node

/-- The directory without entries. -/
def empty : Node := .directory []

/-- Whether the node is a directory. -/
def isDirectory : Node → Bool
  | .directory _ => true
  | .file _ => false

/-- The entries of a directory; a file has none. -/
def entries : Node → List (String × Node)
  | .directory entries => entries
  | .file _ => []

/-- The entry under a name. -/
def child? (node : Node) (name : String) : Option Node := node.entries.lookup name

/-- Entries with a node under a name, in the place of what is there. -/
def setEntry (name : String) (node : Node) : List (String × Node) → List (String × Node)
  | [] => [(name, node)]
  | entry :: rest =>
    if name = entry.1 then (name, node) :: rest else entry :: setEntry name node rest

/-- The directory with a node under a name. -/
def withChild (node : Node) (name : String) (child : Node) : Node :=
  .directory (setEntry name child node.entries)

/-- The node at a location below. -/
def at? : Node → Location → Option Node
  | node, [] => some node
  | node, name :: names => (node.child? name).bind fun child => child.at? names

/-- The tree with `new` placed at a location below. -/
def put : (node : Node) → Location → (new : Node) → Node
  | _, [], new => new
  | node, name :: names, new =>
    node.withChild name (((node.child? name).getD empty).put names new)

mutual

/-- Everything below a node, with its location from there. -/
def descendants : Node → List (Location × Node)
  | .directory entries => entryDescendants entries
  | .file _ => []

/-- The nodes of a list of entries, and everything below them. -/
def entryDescendants : List (String × Node) → List (Location × Node)
  | [] => []
  | (name, node) :: rest =>
    ([name], node) :: node.descendants.map (fun place => (name :: place.1, place.2)) ++
      entryDescendants rest

end

/-! ## Looking where something was placed -/

theorem lookup_setEntry (name other : String) (node : Node) (entries : List (String × Node)) :
    (setEntry name node entries).lookup other =
      if other = name then some node else entries.lookup other := by
  induction entries with
  | nil => by_cases h : other = name <;> simp [setEntry, List.lookup_cons, h, beq_false_of_ne]
  | cons entry rest ih =>
    obtain ⟨key, value⟩ := entry
    by_cases hk : name = key
    · subst hk
      by_cases h : other = name <;> simp [setEntry, List.lookup_cons, h, beq_false_of_ne]
    · by_cases h : other = key
      · subst h
        simp [setEntry, hk, Ne.symm hk]
      · simp [setEntry, List.lookup_cons, hk, beq_false_of_ne h, ih]

/-- The entries after one was set. -/
theorem child?_withChild (node : Node) (name other : String) (child : Node) :
    (node.withChild name child).child? other =
      if other = name then some child else node.child? other :=
  lookup_setEntry name other child node.entries

/-- A location is followed name by name. -/
theorem at?_append (node : Node) (start rest : Location) :
    node.at? (start ++ rest) = (node.at? start).bind fun place => place.at? rest := by
  induction start generalizing node with
  | nil => rfl
  | cons name names ih =>
    simp only [List.cons_append, at?, Option.bind_assoc]
    exact congrArg _ (funext fun child => ih child)

/-- What was placed at a location is there. -/
theorem at?_put (node : Node) (location : Location) (new : Node) :
    (node.put location new).at? location = some new := by
  induction location generalizing node with
  | nil => rfl
  | cons name names ih => simp [put, at?, child?_withChild, ih]

end Node

end SealedModules
