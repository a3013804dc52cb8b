/-
# Module names

Modules are asked for by name, such as `ui.list` or `../shared/util`.  A
name leads to a relative path: a trailing extension is left out first, dots
separate directories unless two of them stand side by side, in which case
the name is a path already, and the extension is put at the end.
-/
import SealedModules.Asset.Path
import SealedModules.Disk.Path

namespace SealedModules.ModuleName

/-- The relative path of a module's file. -/
def toPath (name extension : String) : String :=
  let ending := '.' :: extension.toList
  let stem := (Text.dropEnd? ending name.toList).getD name.toList
  let path := if Text.hasDoubleDot stem then stem else Text.replace '.' '/' stem
  String.ofList (path ++ ending)

/-- Where a module's file is looked for below a directory. -/
def filePath (root : Option String) (name extension : String) : String :=
  match root with
  | some root => Path.append root (toPath name extension)
  | none => toPath name extension

/-- Where a module is looked for among assets. -/
def assetPath (root : Option String) (name extension : String) : String :=
  AssetPath.join root (toPath name extension)

end SealedModules.ModuleName
