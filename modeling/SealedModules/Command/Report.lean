/-
# What a command reports

A command prints text, may fail with a message and the causes below it, and
leaves a disk.
-/
import SealedModules.Disk
import SealedModules.Settings.Read

namespace SealedModules

/-- A failure of a command: what it was about to do, and why that failed,
outermost first. -/
structure CommandError where
  message : String
  causes : List String := []
deriving DecidableEq, Repr

namespace CommandError

/-- A failure with one cause. -/
def because (message cause : String) : CommandError := ⟨message, [cause]⟩

/-- A fault seen while something was done to a path. -/
def ofFault (action path : String) (fault : Fault) : CommandError :=
  because s!"cannot {action} '{path}'" fault.message

/-- The texts of a settings error, outermost first. -/
def causesOf : SettingsError → List String
  | .unreadable fault => [SettingsError.message (.unreadable fault), fault.message]
  | error => [error.message]

end CommandError

/-- What a command leaves. -/
structure CommandRun where
  outcome : Except CommandError Unit
  printed : String := ""
  disk : Disk

namespace CommandRun

/-- A run that failed. -/
def failed (disk : Disk) (error : CommandError) : CommandRun := { outcome := .error error, disk }

/-- A run that printed a text and succeeded. -/
def done (disk : Disk) (printed : String) : CommandRun := { outcome := .ok (), printed, disk }

end CommandRun

end SealedModules
