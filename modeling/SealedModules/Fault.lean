/-
# Input and output faults

What can go wrong when bytes are read or written: the operating system's
own errors, texts and paths that cannot be used, and faults that a reader or
writer reports in words of its own.
-/

namespace SealedModules

/-- An input or output fault. -/
inductive Fault where
  | noEntry
  | alreadyExists
  | notADirectory
  | isADirectory
  | noSpace
  | nameTooLong
  | nulInPath
  | notUtf8
  | noProgress
  | payloadTooLarge
  | assetPathTooLong
  | tooManyAssets
  | absent (text : String)
  | other (text : String)
deriving DecidableEq, Repr

namespace Fault

/-- The text of a fault. -/
def message : Fault → String
  | .noEntry => "No such file or directory (os error 2)"
  | .alreadyExists => "File exists (os error 17)"
  | .notADirectory => "Not a directory (os error 20)"
  | .isADirectory => "Is a directory (os error 21)"
  | .noSpace => "No space left on device (os error 28)"
  | .nameTooLong => "File name too long (os error 36)"
  | .nulInPath => "file name contained an unexpected NUL byte"
  | .notUtf8 => "stream did not contain valid UTF-8"
  | .noProgress => "failed to write whole buffer"
  | .payloadTooLarge => "payload exceeds the envelope size field"
  | .assetPathTooLong => "asset path too long"
  | .tooManyAssets => "too many assets"
  | .absent text => text
  | .other text => text

/-- Whether the fault says that there is nothing at a path. -/
def isAbsence : Fault → Bool
  | .noEntry => true
  | .absent _ => true
  | _ => false

end Fault

end SealedModules
