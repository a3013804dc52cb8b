/-
# Settings

What an application decides about its modules: the file flags, the block
size, the extension of module files, where files and assets are looked for,
the cipher key, and the finders to ask after the registry, in order.
`check` says which settings make no sense.
-/
import SealedModules.Sealing.Sealer
import SealedModules.Fault

namespace SealedModules

/-- The finders that can be asked after the registry. -/
inductive FinderKind where
  | file
  | host
  | asset
deriving DecidableEq, Repr

/-- The name of a finder in settings. -/
def FinderKind.keyword : FinderKind → String
  | .file => "file"
  | .host => "host"
  | .asset => "asset"

/-- The finder with a name. -/
def FinderKind.ofKeyword? : String → Option FinderKind
  | "file" => some .file
  | "host" => some .host
  | "asset" => some .asset
  | _ => none

@[simp] theorem FinderKind.ofKeyword?_keyword (kind : FinderKind) :
    ofKeyword? kind.keyword = some kind := by
  cases kind with
  | file => rfl
  | host => rfl
  | asset => rfl

/-- The name of a finder in a complaint. -/
def FinderKind.title : FinderKind → String
  | .file => "File"
  | .host => "Host"
  | .asset => "Asset"

/-- What makes no sense in settings. -/
inductive SettingsFlaw where
  | zeroBlockSize
  | badExtension (extension : String)
  | repeatedFinder (kind : FinderKind)
  | described (text : String)
deriving DecidableEq, Repr

/-- The text of a flaw. -/
def SettingsFlaw.message : SettingsFlaw → String
  | .zeroBlockSize => "block_size must be positive"
  | .badExtension extension => s!"extension '{extension}' must be a bare, non-empty suffix"
  | .repeatedFinder kind => s!"searcher {kind.title} listed more than once"
  | .described text => text

/-- Why settings are not available. -/
inductive SettingsError where
  | unreadable (fault : Fault)
  | malformed
  | invalid (flaw : SettingsFlaw)
deriving DecidableEq, Repr

/-- The text of a settings error. -/
def SettingsError.message : SettingsError → String
  | .unreadable fault => s!"failed to read config file: {fault.message}"
  | .malformed => "failed to parse config"
  | .invalid flaw => s!"invalid config: {flaw.message}"

/-- The settings of an application. -/
structure Settings where
  flags : Flags := {}
  blockSize : Nat := Sealer.defaultBlockSize
  extension : String := "lua"
  searchRoot : Option String := none
  assetRoot : Option String := none
  cipherKey : Option String := none
  finders : List FinderKind := [.file, .host, .asset]
deriving DecidableEq, Repr

namespace Settings

/-- Whether a text can be the extension of a file. -/
def isBareExtension (extension : String) : Bool :=
  extension ≠ "" && extension.toList.all fun c => c ≠ '.' && c ≠ '/' && c ≠ '\\'

/-- The first finder that stands in a list after itself. -/
def firstRepeated : (before rest : List FinderKind) → Option FinderKind
  | _, [] => none
  | before, kind :: rest =>
    if kind ∈ before then some kind else firstRepeated (before ++ [kind]) rest

/-- The first flaw of the settings, if there is one. -/
def flaw? (s : Settings) : Option SettingsFlaw :=
  if s.blockSize = 0 then some .zeroBlockSize
  else if !isBareExtension s.extension then some (.badExtension s.extension)
  else (firstRepeated [] s.finders).map .repeatedFinder

/-- The settings, if they make sense. -/
def check (s : Settings) : Except SettingsError Settings :=
  match s.flaw? with
  | some flaw => .error (.invalid flaw)
  | none => .ok s

/-- The cipher of the settings. -/
def cipher (s : Settings) : Substitution :=
  Substitution.ofKey ((s.cipherKey.map Utf8.encode).getD Sealer.defaultKey)

/-- The sealer of the settings, for compiled modules with a first byte. -/
def sealer (s : Settings) (signature : UInt8) : Sealer := ⟨s.flags, s.cipher, signature⟩

/-- A sealer for work on sealed files by name: protection is on whatever the
flags say. -/
def sealingSealer (s : Settings) : Sealer :=
  ⟨{ s.flags with protection := true }, s.cipher, Sealer.defaultSignature⟩

end Settings

end SealedModules
