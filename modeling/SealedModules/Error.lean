/-
# Errors of modules

Why a module is not compiled, found, run or dumped.  Every constructor is a
cause with what it needs to be reported; `message` holds all wording.
-/
import SealedModules.Asset.Error
import SealedModules.Settings

namespace SealedModules

/-- What was being done to a file when it failed. -/
inductive Phase where
  | opening
  | readingSource
  | readingCompiled
  | readingSealed
  | writing
  | rewriting
  | closing
deriving DecidableEq, Repr

/-- What a phase does, as a diagnostic says it. -/
def Phase.describe : Phase → String
  | .opening => "open"
  | .readingSource => "read source file"
  | .readingCompiled => "read compiled file"
  | .readingSealed => "read protected file"
  | .writing => "write"
  | .rewriting => "rewrite header of"
  | .closing => "close"

/-- The phase in which a file with some content is read. -/
def Phase.reading : Content → Phase
  | .source => .readingSource
  | .compiled => .readingCompiled
  | .sealedModule => .readingSealed

/-- Why a module is not available. -/
inductive ModuleError where
  | missing (what path reason : String)
  | failed (phase : Phase) (path : String) (fault : Fault)
  | rejected (chunk message : String)
  | exhausted (name : String) (attempts : List String)
  | hostFailed (name message : String)
  | broken (name origin : String) (cause : ModuleError)
  | raised (message : String)
  | asset (error : AssetError)
  | settings (error : SettingsError)

namespace ModuleError

/-- The text of an error. -/
def message : ModuleError → String
  | .missing what path reason => s!"cannot find {what} '{path}': {reason}"
  | .failed phase path fault => s!"cannot {phase.describe} '{path}': {fault.message}"
  | .rejected _ message => message
  | .exhausted name attempts => s!"module '{name}' not found:{String.join attempts}"
  | .hostFailed name message => s!"host failed to provide module '{name}': {message}"
  | .broken name origin cause => s!"error loading module '{name}' from {origin}:\n\t{cause.message}"
  | .raised message => s!"runtime error: {message}"
  | .asset error => error.message
  | .settings error => error.message

/-- Whether an error says that there is nothing to load. -/
def isMissing : ModuleError → Bool
  | .missing .. => true
  | _ => false

end ModuleError

end SealedModules
