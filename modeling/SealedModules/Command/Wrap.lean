/-
# Sealing and unsealing a file by name

Both commands read the whole input before they touch the output, so the two
may be the same file, and an input that cannot be used leaves every file as
it was.  Protection is on whatever the settings say.
-/
import SealedModules.Command.Report

namespace SealedModules.Command

/-- The bytes of a result written to a file, and a line that says so. -/
def deliver (disk : Disk) (verb input output : String) (result : Bytes) : CommandRun :=
  match disk.writeFile output result with
  | (.error fault, disk) => .failed disk (.ofFault "write" output fault)
  | (.ok (), disk) => .done disk s!"{verb} {input} -> {output} ({result.length} bytes)\n"

/-- The command that seals a file. -/
def sealFile (settings : Settings) (input output : String) (disk : Disk) : CommandRun :=
  match disk.fileBytes input with
  | .error fault => .failed disk (.ofFault "read" input fault)
  | .ok bytes =>
    let sealer := settings.sealingSealer
    if sealer.classifyWhole bytes = .sealedModule then
      .failed disk { message := s!"'{input}' is already sealed" }
    else
      match sealer.wrap bytes with
      | .error error => .failed disk { message := error.message }
      | .ok result => deliver disk "Sealed" input output result

/-- The command that unseals a file. -/
def unsealFile (settings : Settings) (input output : String) (disk : Disk) : CommandRun :=
  match disk.fileBytes input with
  | .error fault => .failed disk (.ofFault "read" input fault)
  | .ok bytes =>
    match settings.sealingSealer.unwrap bytes with
    | .error error => .failed disk (.because s!"cannot unseal '{input}'" error.message)
    | .ok plain => deliver disk "Unsealed" input output plain

end SealedModules.Command
