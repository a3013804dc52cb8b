/-
# Reading settings

Settings are read from a TOML document.  Every entry is optional and unknown
ones are passed over, but an entry that is there has to be of its kind.
-/
import SealedModules.Disk
import SealedModules.Settings
import SealedModules.Toml.Document

namespace SealedModules.Settings

open Toml (Item Entries)

/-- A truth value. -/
def boolean? : Item → Option Bool
  | .boolean value => some value
  | _ => none

/-- A text. -/
def text? : Item → Option String
  | .text text => some text
  | _ => none

/-- An integer that is not negative. -/
def count? : Item → Option Nat
  | .integer n => if n < 0 then none else some n.toNat
  | _ => none

/-- The value under a key read by `read?`, or a default if there is none. -/
def entry? {α : Type} (entries : Entries) (key : String) (read? : Item → Option α)
    (default : α) : Option α :=
  match entries.get? key with
  | none => some default
  | some item => read? item

/-- The truth value at a place in a list, or a default past its end. -/
def element? (items : List Item) (index : Nat) (default : Bool) : Option Bool :=
  match items[index]? with
  | none => some default
  | some item => boolean? item

/-- The file flags: a table, or the flags in order.  A date counts as a table
without known entries. -/
def flags? : Item → Option Flags
  | .table _ entries => do
    return {
      protection := ← entry? entries "protected" boolean? true
      readableSource := ← entry? entries "readable_source" boolean? true }
  | .array items => do
    return { protection := ← element? items 0 true, readableSource := ← element? items 1 true }
  | .moment => some {}
  | _ => none

/-- Whether an item is an empty table or list. -/
def isEmptyItem : Item → Bool
  | .table _ entries => entries.isEmpty
  | .array items => items.isEmpty
  | .tables items => items.isEmpty
  | _ => false

/-- A finder: its name, or a table that has its name as the one key, with
nothing in it. -/
def finder? : Item → Option FinderKind
  | .text name => FinderKind.ofKeyword? name
  | .table _ [(name, item)] => if isEmptyItem item then FinderKind.ofKeyword? name else none
  | _ => none

/-- A list of finders. -/
def finders? : Item → Option (List FinderKind)
  | .array items => items.mapM finder?
  | .tables items => items.mapM fun entries => finder? (.table .header entries)
  | _ => none

/-- The settings in the table of a document. -/
def ofEntries? (entries : Entries) : Option Settings := do
  let default : Settings := {}
  let optional (item : Item) : Option (Option String) := (text? item).map some
  return {
    flags := ← entry? entries "flags" flags? default.flags
    blockSize := ← entry? entries "block_size" count? default.blockSize
    extension := ← entry? entries "extension" text? default.extension
    searchRoot := ← entry? entries "search_root" optional none
    assetRoot := ← entry? entries "asset_root" optional none
    cipherKey := ← entry? entries "cipher_key" optional none
    finders := ← entry? entries "searchers" finders? default.finders }

/-- The settings in a document. -/
def ofText (text : String) : Except SettingsError Settings :=
  match (Toml.Document.read? text).bind ofEntries? with
  | none => .error .malformed
  | some settings => settings.check

/-- The settings in a file. -/
def ofFile (disk : Disk) (path : String) : Except SettingsError Settings :=
  match disk.fileText path with
  | .error fault => .error (.unreadable fault)
  | .ok text => ofText text

end SealedModules.Settings
