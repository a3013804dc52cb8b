/-
# Dumping modules

A compiled module is dumped in its binary form, sealed if protection is on.
The length of the payload is known only after it has been written, so a
sealed dump goes in two phases: a placeholder of zeros and the payload,
encoded as it comes; then the placeholder is overwritten with the envelope.
A dump that breaks off leaves what it has written.
-/
import SealedModules.Disk
import SealedModules.Error
import SealedModules.Script.CompiledModule
import SealedModules.Stream.SealingWriter

namespace SealedModules

/-- What a dump produced. -/
structure DumpReport where
  payloadLength : Nat
  totalLength : Nat
  isSealed : Bool
deriving DecidableEq, Repr

namespace Dump

/-- The length of what precedes the payload. -/
def headLength (sealer : Sealer) : Nat := if sealer.isProtecting then Envelope.size else 0

/-- The placeholder for an envelope, if there is to be one. -/
def placeholder (sealer : Sealer) : Bytes := List.replicate (headLength sealer) 0

/-- The bytes at `start` overwritten with an envelope; the position is then
back at `finish`. -/
def patch (output : Output) (start finish : Nat) (envelope : Envelope) :
    Except (Phase × Fault) Unit × Output :=
  match Writer.writeAll (output.seek start) envelope.toBytes with
  | (.error fault, output) => (.error (.rewriting, fault), output)
  | (.ok (), output) => (.ok (), output.seek finish)

/-- The envelope put in its place after a payload has been written. -/
def finish (sealer : Sealer) (output : Output) (start : Nat) :
    Except (Phase × Fault) DumpReport × Output :=
  let totalLength := output.position - start
  let payloadLength := totalLength - headLength sealer
  let report : DumpReport := ⟨payloadLength, totalLength, sealer.isProtecting⟩
  if !sealer.isProtecting then (.ok report, output)
  else if payloadLength ≥ UInt32.size then (.error (.writing, .payloadTooLarge), output)
  else
    match patch output start output.position ⟨UInt32.ofNat payloadLength⟩ with
    | (.error failure, output) => (.error failure, output)
    | (.ok (), output) => (.ok report, output)

/-- A module dumped to an output, from its position on. -/
def toOutput (sealer : Sealer) (unit : CompiledModule) (blockSize : Nat) (output : Output) :
    Except (Phase × Fault) DumpReport × Output :=
  let start := output.position
  match Writer.writeAll output (placeholder sealer) with
  | (.error fault, output) => (.error (.writing, fault), output)
  | (.ok (), output) =>
    match (SealingWriter.ofOutput output sealer blockSize).writePieces unit.pieces with
    | (.error fault, writer) => (.error (.writing, fault), writer.output)
    | (.ok (), writer) => finish sealer writer.flush.output start

/-- The name of a dump in memory. -/
def memoryPath : String := "<memory>"

/-- A module dumped into memory. -/
def toBytes (sealer : Sealer) (unit : CompiledModule) (blockSize : Nat) :
    Except ModuleError (Bytes × DumpReport) :=
  match toOutput sealer unit blockSize {} with
  | (.ok report, output) => .ok (output.contents, report)
  | (.error (phase, fault), _) => .error (.failed phase memoryPath fault)

/-- A module dumped to a file, which is emptied or made first and closed
last. -/
def toFile (sealer : Sealer) (unit : CompiledModule) (blockSize : Nat) (disk : Disk)
    (path : String) : Except ModuleError DumpReport × Disk :=
  match disk.create path with
  | .error fault => (.error (.failed .opening path fault), disk)
  | .ok (location, disk) =>
    let (outcome, output) := toOutput sealer unit blockSize (disk.output location)
    let disk := disk.store location output.contents
    match outcome, (disk.limits location).closing with
    | .error (phase, fault), _ => (.error (.failed phase path fault), disk)
    | .ok _, some fault => (.error (.failed .closing path fault), disk)
    | .ok report, none => (.ok report, disk)

end Dump

end SealedModules
