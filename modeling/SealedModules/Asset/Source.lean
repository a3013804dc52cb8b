/-
# Sources of assets

Whatever can say whether there is an asset at a path and open it serves
modules.  An opened asset announces a length and is then read; neither has
to tell the truth about the other.
-/
import SealedModules.Asset.Error
import SealedModules.Disk

namespace SealedModules

/-- An opened asset. -/
structure Asset where
  length : Nat
  reader : Reader
deriving DecidableEq, Repr

/-- Something that serves assets by path. -/
structure AssetSource where
  contains : String → Bool
  fetch : Disk → String → Except AssetError Asset

end SealedModules
