/-
# Asset errors

Why an asset is not there, or a pack is not read.
-/
import SealedModules.Fault
import SealedModules.Text.Number

namespace SealedModules

/-- What is wrong with the layout of a pack. -/
inductive PackFlaw where
  | tooShort
  | badMagic
  | sectionLength (actual declared : Nat)
  | truncatedHeader (offset : Nat)
  | overrun (offset : Nat)
  | entryCount (found declared : Nat)
  | described (text : String)
deriving DecidableEq, Repr

/-- The text of a flaw. -/
def PackFlaw.message : PackFlaw → String
  | .tooShort => "file too short for trailer"
  | .badMagic => "bad trailer magic"
  | .sectionLength actual declared =>
    s!"entry section is {actual} bytes, trailer declares {declared}"
  | .truncatedHeader offset => s!"truncated entry header at offset {offset}"
  | .overrun offset => s!"entry at offset {offset} overruns the pack"
  | .entryCount found declared => s!"found {found} entries, trailer declares {declared}"
  | .described text => text

/-- Why an asset is not delivered. -/
inductive AssetError where
  | notFound (path : String)
  | failed (fault : Fault)
  | invalidPack (flaw : PackFlaw)
  | checksumMismatch (expected actual : Nat)
deriving DecidableEq, Repr

/-- The text of an asset error. -/
def AssetError.message : AssetError → String
  | .notFound path => s!"asset not found: {path}"
  | .failed fault => s!"asset I/O error: {fault.message}"
  | .invalidPack flaw => s!"invalid asset pack: {flaw.message}"
  | .checksumMismatch expected actual =>
    s!"asset pack checksum mismatch: expected {Text.hex32 expected}, got {Text.hex32 actual}"

end SealedModules
