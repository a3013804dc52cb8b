/-
# The contents of a settings document

A TOML document is a table of items.  Besides its entries a table remembers
how it came about, because that decides what may still be added to it: a
table written inline is complete, one opened by a header may not be opened
or reached by dotted keys again, one implied by a longer header may still be
opened, and one made by dotted keys takes further dotted keys only.

`alter` follows a path of keys from table to table and changes the last one.
-/

namespace SealedModules.Toml

/-- How a table came about. -/
inductive Origin where
  | inlined
  | header
  | implied
  | dotted
deriving DecidableEq, Repr

/-- A value of a document.  Numbers with a fraction and dates are told apart
from the others but not kept. -/
inductive Item where
  | text (text : String)
  | integer (value : Int)
  | float
  | boolean (value : Bool)
  | moment
  | array (items : List Item)
  | table (origin : Origin) (entries : List (String × Item))
  | tables (items : List (List (String × Item)))

/-- The entries of a table in the order they were made. -/
abbrev Entries := List (String × Item)

namespace Entries

/-- The item under a key. -/
def get? (entries : Entries) (key : String) : Option Item :=
  (entries.find? fun entry => entry.1 = key).map (·.2)

/-- The entries with another item under a key that is there. -/
def replace (entries : Entries) (key : String) (item : Item) : Entries :=
  entries.map fun entry => if entry.1 = key then (key, item) else entry

/-- The entries with an item under a key that is not there yet. -/
def add? (entries : Entries) (key : String) (item : Item) : Option Entries :=
  if (entries.get? key).isSome then none else some (entries ++ [(key, item)])

/-- The table at the end of `path` changed by `change`, which is told how
that table came about; tables that are missing on the way are made.  An
array of tables stands for its last one. -/
def alter (dotted : Bool) (change : Origin → Entries → Option Entries) :
    (path : List String) → (origin : Origin) → Entries → Option Entries
  | [], origin, entries => change origin entries
  | key :: path, _, entries =>
    match entries.get? key with
    | none => do
      let origin : Origin := if dotted then .dotted else .implied
      let inner ← alter dotted change path origin []
      return entries ++ [(key, .table origin inner)]
    | some (.table origin inner) =>
      if origin = .inlined ∨ (dotted ∧ origin = .header) then none
      else do
        let inner ← alter dotted change path origin inner
        return entries.replace key (.table origin inner)
    | some (.tables items) => do
      let last ← alter dotted change path .header (← items.getLast?)
      return entries.replace key (.tables (items.dropLast ++ [last]))
    | some _ => none

/-- An item added under a dotted key, whose last part is `key`: only tables
made by dotted keys are reached by one. -/
def addDotted (entries : Entries) (path : List String) (key : String) (item : Item) :
    Option Entries :=
  alter true
    (fun origin inner =>
      if (origin = .dotted) = (path = []) then none else inner.add? key item)
    path .header entries

/-- An item added to the table that the header `current` opened. -/
def addBelow (entries : Entries) (current path : List String) (key : String) (item : Item) :
    Option Entries :=
  alter false (fun _ inner => inner.addDotted path key item) current .header entries

/-- A table opened by a header. -/
def openTable (entries : Entries) (path : List String) (key : String) : Option Entries :=
  alter false
    (fun _ inner =>
      match inner.get? key with
      | none => some (inner ++ [(key, .table .header [])])
      | some (.table .implied below) => some (inner.replace key (.table .header below))
      | some _ => none)
    path .header entries

/-- One more table opened in an array of tables. -/
def openElement (entries : Entries) (path : List String) (key : String) : Option Entries :=
  alter false
    (fun _ inner =>
      match inner.get? key with
      | none => some (inner ++ [(key, .tables [[]])])
      | some (.tables items) => some (inner.replace key (.tables (items ++ [[]])))
      | some _ => none)
    path .header entries

end Entries

end SealedModules.Toml
