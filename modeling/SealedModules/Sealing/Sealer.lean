/-
# Sealing and recognising sealed modules

A `Sealer` holds what decides the form of module files: the flags, the
cipher, and the first byte of compiled modules.  It tells what a file holds
from the first bytes and the length (`classify`), transforms payload bytes
piece by piece (`encode`, `decode`), and wraps or unwraps whole payloads
(`wrap`, `unwrap`).  With protection off there are no sealed files and the
transforms do nothing.
-/
import SealedModules.Sealing.Envelope
import SealedModules.Sealing.Flags
import SealedModules.Sealing.Substitution
import SealedModules.Text.Utf8

namespace SealedModules

/-- What a module file holds. -/
inductive Content where
  | source
  | compiled
  | sealedModule
deriving DecidableEq, Repr

/-- A word for the content, as diagnostics show it. -/
def Content.describe : Content → String
  | .source => "source"
  | .compiled => "compiled"
  | .sealedModule => "protected"

/-- Why a payload is not wrapped or unwrapped. -/
inductive SealError where
  | notSealed
  | lengthMismatch (declared actual : Nat)
  | payloadTooLarge (length : Nat)
  | protectionDisabled
deriving DecidableEq, Repr

/-- The text of a sealing error. -/
def SealError.message : SealError → String
  | .notSealed => "not a sealed module (missing or foreign header)"
  | .lengthMismatch declared actual =>
    s!"sealed payload length mismatch: header declares {declared} bytes, found {actual}"
  | .payloadTooLarge length => s!"payload of {length} bytes exceeds the envelope size field"
  | .protectionDisabled => "protection is disabled"

/-- The form of module files. -/
structure Sealer where
  flags : Flags
  cipher : Substitution
  signature : UInt8

namespace Sealer

/-- The key in force when none is configured. -/
def defaultKey : Bytes := Utf8.encode "modseal.default-key.v1"

/-- The first byte of compiled modules. -/
def defaultSignature : UInt8 := 0x1B

/-- The block size in force when none is configured. -/
def defaultBlockSize : Nat := 1024

/-- Whether sealed modules are written and recognised. -/
def isProtecting (s : Sealer) : Bool := s.flags.protection

/-- What a file of `total` bytes with the first bytes `lead` holds. -/
def classify (s : Sealer) (lead : Bytes) (total : Nat) : Content :=
  if s.isProtecting && (Envelope.parse? lead).any (·.matchesLength total) then .sealedModule
  else if lead.head? = some s.signature then .compiled
  else .source

/-- What a whole file holds. -/
def classifyWhole (s : Sealer) (bytes : Bytes) : Content :=
  s.classify (bytes.take Envelope.size) bytes.length

/-- Payload bytes as they are written. -/
def encode (s : Sealer) (bytes : Bytes) : Bytes :=
  if s.isProtecting then s.cipher.encipher bytes else bytes

/-- Payload bytes as they are loaded. -/
def decode (s : Sealer) (bytes : Bytes) : Bytes :=
  if s.isProtecting then s.cipher.decipher bytes else bytes

/-- A payload wrapped in an envelope. -/
def wrap (s : Sealer) (payload : Bytes) : Except SealError Bytes :=
  if !s.isProtecting then .error .protectionDisabled
  else if payload.length ≥ UInt32.size then .error (.payloadTooLarge payload.length)
  else .ok ((Envelope.mk (UInt32.ofNat payload.length)).toBytes ++ s.encode payload)

/-- The payload of a sealed module. -/
def unwrap (s : Sealer) (bytes : Bytes) : Except SealError Bytes :=
  if !s.isProtecting then .error .protectionDisabled
  else
    match Envelope.parse? bytes with
    | none => .error .notSealed
    | some envelope =>
      if envelope.matchesLength bytes.length then .ok (s.decode (bytes.drop Envelope.size))
      else
        .error (.lengthMismatch envelope.payloadLength.toNat (bytes.length - Envelope.size))

/-- The sealer as a diagnostic shows it. -/
def describe (s : Sealer) : String :=
  s!"Codec \x7b flags: {s.flags.describe}, signature: {s.signature.toNat}, .. \x7d"

end Sealer

end SealedModules
