/-
# The command line

An invocation names a command with its arguments and, optionally, a settings
file and a cipher key.  Without a settings file the one in the current
directory is taken if there is one; a key given by name overrides the
configured one.
-/
import SealedModules.Command.Inspect
import SealedModules.Command.Pack
import SealedModules.Command.Unpack
import SealedModules.Command.Wrap

namespace SealedModules

/-- A command with its arguments. -/
inductive Command where
  | wrap (input output : String)
  | unwrap (input output : String)
  | inspect (files : List String) (asJson : Bool)
  | pack (directory output : String) (sealing : Bool)
  | unpack (pack : String) (directory : Option String) (listOnly : Bool)
deriving DecidableEq, Repr

/-- A command and what the settings come from. -/
structure Invocation where
  settingsPath : Option String := none
  key : Option String := none
  command : Command
deriving DecidableEq, Repr

namespace Invocation

/-- The settings file that is taken if it is there and none is named. -/
def defaultSettingsPath : String := "modseal.toml"

/-- The settings in a named file. -/
def settingsFrom (disk : Disk) (path : String) : Except CommandError Settings :=
  match Settings.ofFile disk path with
  | .ok settings => .ok settings
  | .error error => .error ⟨s!"failed to load {path}", CommandError.causesOf error⟩

/-- The settings of an invocation before its key is looked at. -/
def configured (invocation : Invocation) (disk : Disk) : Except CommandError Settings :=
  match invocation.settingsPath with
  | some path => settingsFrom disk path
  | none =>
    if disk.isPresent defaultSettingsPath then settingsFrom disk defaultSettingsPath
    else .ok {}

/-- The settings of an invocation. -/
def settings (invocation : Invocation) (disk : Disk) : Except CommandError Settings :=
  (configured invocation disk).map fun settings =>
    { settings with cipherKey := invocation.key <|> settings.cipherKey }

/-- An invocation carried out. -/
def run (invocation : Invocation) (disk : Disk) : CommandRun :=
  match invocation.settings disk with
  | .error error => .failed disk error
  | .ok settings =>
    match invocation.command with
    | .wrap input output => Command.sealFile settings input output disk
    | .unwrap input output => Command.unsealFile settings input output disk
    | .inspect files asJson => Command.inspectFiles settings files asJson disk
    | .pack directory output sealing =>
      Command.packDirectory settings directory output sealing disk
    | .unpack pack directory listOnly => Command.unpackFile pack directory listOnly disk

end Invocation

end SealedModules
