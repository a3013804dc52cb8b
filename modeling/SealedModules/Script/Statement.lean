/-
# The script language

A script is a text of lines.  A line is significant if it is not blank and
not a comment (`--`); a script has at most one significant line, which
returns a number or raises an error:

    return 42
    error something is missing

A malformed line, or a second significant one, is reported with its number.
-/
import SealedModules.Script.CompiledModule
import SealedModules.Text.Blank
import SealedModules.Text.Number
import SealedModules.Text.Split

namespace SealedModules

/-- What a significant line does. -/
inductive Statement where
  | returning (value : Int64)
  | raising (message : String)
deriving DecidableEq

namespace Statement

/-- The statement a trimmed line stands for. -/
def read? (line : List Char) : Option Statement :=
  match Text.dropStart? "return ".toList line with
  | some rest => (Text.readInt64? (Text.trim rest)).map .returning
  | none =>
    match Text.dropStart? "error ".toList line with
    | some rest => some (.raising (String.ofList (Text.trim rest)))
    | none => none

end Statement

namespace Script

/-- Whether a trimmed line is more than a comment or a blank. -/
def isSignificant (line : List Char) : Bool :=
  !line.isEmpty && (Text.dropStart? "--".toList line).isNone

/-- The significant lines of a text, trimmed, each with its number. -/
def significantLines (cs : List Char) : List (List Char × Nat) :=
  (((Text.split '\n' cs).map Text.trim).zipIdx 1).filter fun line => isSignificant line.1

/-- The complaint about a line. -/
def complaint (chunk : String) (line : List Char × Nat) : String :=
  s!"[string \"{chunk}\"]:{line.2}: unexpected symbol near '{String.ofList line.1}'"

/-- The statement of a script, if it has one, or the first line that is
malformed or one too many. -/
def statement? (cs : List Char) : Except (List Char × Nat) (Option Statement) :=
  match significantLines cs with
  | [] => .ok none
  | first :: more =>
    match Statement.read? first.1, more with
    | none, _ => .error first
    | some _, second :: _ => .error second
    | some statement, [] => .ok (some statement)

/-- The module a script compiles to, or a complaint. -/
def compile (bytes : Bytes) (chunk : String) : Except String CompiledModule :=
  match statement? (Utf8.decodeChars bytes) with
  | .error line => .error (complaint chunk line)
  | .ok none => .ok { value := none, failure := none, chunk, text := bytes }
  | .ok (some (.returning value)) =>
    .ok { value := some value, failure := none, chunk, text := bytes }
  | .ok (some (.raising message)) =>
    .ok { value := none, failure := some message, chunk, text := bytes }

end Script

end SealedModules
