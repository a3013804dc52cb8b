/-
# Writing sealed payloads piece by piece

A `SealingWriter` stands in front of an output and encodes what passes
through it, at most a block at a time.  It counts the plain bytes of the
blocks that the output took whole.
-/
import SealedModules.Stream.Output
import SealedModules.Sealing.Sealer

namespace SealedModules

/-- An output behind an encoder. -/
structure SealingWriter where
  output : Output
  sealer : Sealer
  blockSize : Nat
  blockSize_pos : 0 < blockSize
  written : Nat := 0

namespace SealingWriter

/-- A writer of blocks of at most `blockSize` bytes (zero acts as one). -/
def ofOutput (output : Output) (sealer : Sealer) (blockSize : Nat) : SealingWriter :=
  { output, sealer, blockSize := max blockSize 1, blockSize_pos := Nat.le_max_right blockSize 1 }

/-- One write: the first block of `bytes` is encoded and written whole. -/
def write (w : SealingWriter) (bytes : Bytes) : Except Fault Nat × SealingWriter :=
  let block := bytes.take w.blockSize
  match Writer.writeAll w.output (w.sealer.encode block) with
  | (.error fault, output) => (.error fault, { w with output })
  | (.ok (), output) => (.ok block.length, { w with output, written := w.written + block.length })

instance : Writer SealingWriter where
  write := write

/-- All pieces written in order, up to the first failure. -/
def writePieces (w : SealingWriter) : List Bytes → Except Fault Unit × SealingWriter
  | [] => (.ok (), w)
  | piece :: pieces =>
    match Writer.writeAll w piece with
    | (.error fault, w) => (.error fault, w)
    | (.ok (), w) => writePieces w pieces

/-- The writer after a flush. -/
def flush (w : SealingWriter) : SealingWriter := { w with output := w.output.flush }

end SealingWriter

end SealedModules
