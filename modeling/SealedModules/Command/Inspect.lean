/-
# Inspecting files

The command that tells how files would be taken when they are loaded, from
their first bytes and their lengths, as a table or as JSON.  Nothing is
printed unless every file can be read.
-/
import SealedModules.Command.Report
import SealedModules.Text.Number

namespace SealedModules.Command

/-- What was found out about a file. -/
structure Inspection where
  path : String
  length : Nat
  content : Content
  /-- the payload length in a well-formed envelope, fitting or not -/
  declared : Option Nat
deriving DecidableEq, Repr

namespace Inspection

/-- A file inspected. -/
def ofFile (sealer : Sealer) (disk : Disk) (path : String) : Except CommandError Inspection :=
  match disk.openFile path with
  | .error fault => .error (.ofFault "open" path fault)
  | .ok (length, reader) =>
    match (reader.fill Envelope.size).1 with
    | .error fault => .error (.ofFault "read" path fault)
    | .ok lead =>
      .ok {
        path
        length
        content := sealer.classify lead length
        declared := (Envelope.parse? lead).map (·.payloadLength.toNat) }

/-! ## The table -/

/-- What a line of the table says about the envelope. -/
def remark (report : Inspection) : String :=
  match report.declared with
  | none => "no envelope"
  | some length =>
    if report.content = .sealedModule then s!"payload {length} bytes"
    else s!"header declares {length} bytes, does not match"

/-- A line of the table. -/
def line (report : Inspection) : String :=
  Text.alignLeft 40 report.path ++ " " ++ Text.alignRight 10 (toString report.length) ++
    " bytes  " ++ Text.alignLeft 10 report.content.describe ++ " " ++ report.remark ++ "\n"

/-! ## JSON -/

/-- A character of a JSON text. -/
def escapeChar (c : Char) : List Char :=
  if c = '"' then ['\\', '"']
  else if c = '\\' then ['\\', '\\']
  else if c = '\n' then ['\\', 'n']
  else if c = '\t' then ['\\', 't']
  else if c = '\r' then ['\\', 'r']
  else if c = '\x08' then ['\\', 'b']
  else if c = '\x0c' then ['\\', 'f']
  else if c.toNat < 32 then ['\\', 'u'] ++ Text.hexDigits 4 c.toNat
  else [c]

/-- A text in JSON, with its quotes. -/
def quote (text : String) : String :=
  "\"" ++ String.ofList (text.toList.flatMap escapeChar) ++ "\""

/-- The name of a content in JSON. -/
def contentName : Content → String
  | .source => "plain_source"
  | .compiled => "plain_compiled"
  | .sealedModule => "protected"

/-- The members of a report's JSON object. -/
def members (report : Inspection) : List (String × String) :=
  [("path", quote report.path), ("len", toString report.length),
    ("kind", quote (contentName report.content))] ++
    (report.declared.map fun length => ("declared_payload", toString length)).toList

/-- A report as a JSON object, indented as an element of a list. -/
def toJson (report : Inspection) : String :=
  let lines := report.members.map fun member => s!"    {quote member.1}: {member.2}"
  "  \x7b\n" ++ String.intercalate ",\n" lines ++ "\n  \x7d"

/-- Reports as a JSON list. -/
def listToJson (reports : List Inspection) : String :=
  if reports.isEmpty then "[]"
  else "[\n" ++ String.intercalate ",\n" (reports.map toJson) ++ "\n]"

end Inspection

/-- The command that inspects files. -/
def inspectFiles (settings : Settings) (files : List String) (asJson : Bool) (disk : Disk) :
    CommandRun :=
  match files.mapM (Inspection.ofFile settings.sealingSealer disk) with
  | .error error => .failed disk error
  | .ok reports =>
    if asJson then .done disk (Inspection.listToJson reports ++ "\n")
    else .done disk (String.join (reports.map Inspection.line))

end SealedModules.Command
