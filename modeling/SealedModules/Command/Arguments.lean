/-
# Reading the arguments of the program

The arguments name a command, its operands in order, and options that may
stand anywhere among them:

    [-c FILE] [-k KEY] seal INPUT OUTPUT
    [-c FILE] [-k KEY] unseal INPUT OUTPUT
    [-c FILE] [-k KEY] inspect [--json] FILE...
    [-c FILE] [-k KEY] pack [--seal] DIRECTORY OUTPUT
    [-c FILE] [-k KEY] unpack [-l] PACK [DIRECTORY]
-/
import SealedModules.Command.Invocation

namespace SealedModules

/-- Options and operands as they stand in the arguments. -/
structure Arguments where
  settingsPath : Option String := none
  key : Option String := none
  asJson : Bool := false
  sealing : Bool := false
  listOnly : Bool := false
  operands : List String := []
deriving DecidableEq, Repr

namespace Arguments

/-- How the program is used. -/
def usage : String :=
  "usage: [-c FILE] [-k KEY] seal INPUT OUTPUT | unseal INPUT OUTPUT | " ++
    "inspect [--json] FILE... | pack [--seal] DIRECTORY OUTPUT | unpack [-l] PACK [DIRECTORY]"

/-- The arguments taken apart, or none if an option is unknown or lacks its
value. -/
def read? : List String → Arguments → Option Arguments
  | [], found => some { found with operands := found.operands.reverse }
  | [argument], found =>
    match argument with
    | "--json" => read? [] { found with asJson := true }
    | "--seal" => read? [] { found with sealing := true }
    | "-l" | "--list" => read? [] { found with listOnly := true }
    | _ => if isOption argument then none else
      read? [] { found with operands := argument :: found.operands }
  | argument :: value :: rest, found =>
    match argument with
    | "-c" | "--config" => read? rest { found with settingsPath := some value }
    | "-k" | "--key" => read? rest { found with key := some value }
    | "--json" => read? (value :: rest) { found with asJson := true }
    | "--seal" => read? (value :: rest) { found with sealing := true }
    | "-l" | "--list" => read? (value :: rest) { found with listOnly := true }
    | _ => if isOption argument then none else
      read? (value :: rest) { found with operands := argument :: found.operands }
where
  /-- Whether an argument is meant as an option. -/
  isOption (argument : String) : Bool := argument.toList.head? = some '-' && argument ≠ "-"

/-- The command that operands name. -/
def command? (a : Arguments) : Option Command :=
  match a.operands with
  | ["seal", input, output] => some (.wrap input output)
  | ["unseal", input, output] => some (.unwrap input output)
  | "inspect" :: file :: files => some (.inspect (file :: files) a.asJson)
  | ["pack", directory, output] => some (.pack directory output a.sealing)
  | ["unpack", pack] => some (.unpack pack none a.listOnly)
  | ["unpack", pack, directory] => some (.unpack pack (some directory) a.listOnly)
  | _ => none

/-- The invocation that the arguments of the program stand for. -/
def invocation? (arguments : List String) : Option Invocation := do
  let found ← read? arguments {}
  return { settingsPath := found.settingsPath, key := found.key, command := ← found.command? }

end Arguments

/-- The paths an invocation may read or write. -/
def Invocation.paths (invocation : Invocation) : List String :=
  invocation.settingsPath.getD defaultSettingsPath ::
    match invocation.command with
    | .wrap input output => [input, output]
    | .unwrap input output => [input, output]
    | .inspect files _ => files
    | .pack directory output _ => [directory, output]
    | .unpack pack directory _ => pack :: directory.toList

end SealedModules
