/-
# What is compiled from a whole file

The interpreter takes a feed in to its end before it looks at anything, so
what it makes of a file depends on the bytes that the feed hands out in all.
From memory, and from a file or an asset read without a disturbance, these
are the same bytes, the `payload`; the block size and the plan of the reads
are not seen in the result (`ofBytes_eq`, `ofFeed_of_undisturbed`).
-/
import SealedModules.Compile
import SealedModules.Proofs.Feeding

namespace SealedModules

theorem Interpreter.load_eq {σ : Type} [Feed σ] (i : Interpreter) (feed : σ)
    (chunk : Option String) :
    i.load feed chunk =
      (read (Feed.drain feed).1 (chunk.getD anonymous), i.noteLoad (chunk.getD anonymous),
        (Feed.drain feed).2) := by
  rfl

/-- What is loaded of a file announced to be `total` bytes long. -/
def payload (sealer : Sealer) (bytes : Bytes) (total : Nat) : Bytes :=
  if StreamFeed.contentOf sealer bytes total = .sealedModule
  then sealer.decode (bytes.drop Envelope.size) else bytes

theorem payload_of_not_protecting {sealer : Sealer} (h : sealer.isProtecting = false)
    (bytes : Bytes) (total : Nat) : payload sealer bytes total = bytes := by
  refine if_neg fun hsealed => ?_
  have hp := (StreamFeed.contentOf_eq_sealedModule_iff.mp hsealed).1
  rw [h] at hp
  cases hp

namespace Compilation

/-- What becomes of a whole file that is compiled under a name. -/
def outcome (sealer : Sealer) (bytes : Bytes) (total : Nat) (chunk : Option String) :
    Except ModuleError Compilation :=
  match Interpreter.read (payload sealer bytes total) (chunk.getD Interpreter.anonymous) with
  | .ok unit =>
    .ok ⟨unit, StreamFeed.contentOf sealer bytes total, chunk, (payload sealer bytes total).length⟩
  | .error message => .error (.rejected (chunk.getD Interpreter.anonymous) message)

variable (interpreter : Interpreter) (sealer : Sealer)

theorem ofBytes_eq (bytes : Bytes) (chunk : Option String) :
    ofBytes interpreter sealer bytes chunk =
      (outcome sealer bytes bytes.length chunk,
        interpreter.noteLoad (chunk.getD Interpreter.anonymous)) := by
  have hcontent := BufferFeed.content_ofBytes sealer bytes
  have hdata : (BufferFeed.ofBytes sealer bytes).data = payload sealer bytes bytes.length := by
    rw [payload, ← hcontent]
    rfl
  obtain ⟨hbytes, hconsumed⟩ := BufferFeed.drain_ofBytes sealer bytes
  rw [hdata] at hbytes hconsumed
  unfold ofBytes outcome
  simp only [Interpreter.load_eq, hbytes, hconsumed, hcontent]
  cases Interpreter.read (payload sealer bytes bytes.length)
      (chunk.getD Interpreter.anonymous) with
  | ok unit => rfl
  | error message => rfl

/-- A fault that a feed keeps outranks what was made of its bytes. -/
theorem ofFeed_of_fault {feed : StreamFeed} {fault : Fault}
    (h : (Feed.blocks feed).2.fault = some fault) (chunk path : String) :
    ofFeed interpreter feed chunk path =
      (.error (.failed (.reading feed.content) path fault), interpreter.noteLoad chunk) := by
  unfold ofFeed
  simp only [Interpreter.load_eq, Feed.drain_eq, h, StreamFeed.takeFault, Option.getD_some]

/-- A feed that hands out the payload of some bytes without a fault is
compiled as those bytes are. -/
theorem ofFeed_of_payload {reader : Reader} {sealer : Sealer} {bytes : Bytes}
    {total blockSize : Nat}
    (hcontent : (StreamFeed.ofReader reader total sealer blockSize).content =
      StreamFeed.contentOf sealer bytes total)
    (hbytes : (Feed.blocks (StreamFeed.ofReader reader total sealer blockSize)).1.flatten =
      payload sealer bytes total)
    (hfault : (Feed.blocks (StreamFeed.ofReader reader total sealer blockSize)).2.fault = none)
    (chunk path : String) :
    ofFeed interpreter (.ofReader reader total sealer blockSize) chunk path =
      (outcome sealer bytes total (some chunk), interpreter.noteLoad chunk) := by
  have hconsumed := StreamFeed.consumed_blocks (.ofReader reader total sealer blockSize)
  rw [StreamFeed.consumed_ofReader, Nat.zero_add, hbytes] at hconsumed
  unfold ofFeed outcome
  simp only [Interpreter.load_eq, Feed.drain_eq, hbytes, hconsumed, hcontent, hfault,
    StreamFeed.takeFault, Option.getD_some]
  cases Interpreter.read (payload sealer bytes total) chunk with
  | ok unit => rfl
  | error message => rfl

theorem ofFeed_of_undisturbed {reader : Reader} {total blockSize : Nat}
    (h : StreamFeed.Undisturbed reader total sealer blockSize) (chunk path : String) :
    ofFeed interpreter (.ofReader reader total sealer blockSize) chunk path =
      (outcome sealer reader.rest total (some chunk), interpreter.noteLoad chunk) :=
  ofFeed_of_payload interpreter (StreamFeed.content_ofReader h)
    (StreamFeed.flatten_blocks_ofReader h) (StreamFeed.blocks_ofReader h).2 chunk path

theorem ofFile_of_openFile {disk : Disk} {path : String} {bytes : Bytes}
    (h : disk.openFile path = .ok (bytes.length, { rest := bytes })) (chunk : Option String)
    (blockSize : Nat) :
    ofFile interpreter sealer disk path chunk blockSize =
      (outcome sealer bytes bytes.length (some (chunk.getD (pathChunk path))),
        interpreter.noteLoad (chunk.getD (pathChunk path))) := by
  have hsteady : Reader.SteadyPlan (Reader.mk bytes []).plan := by simp [Reader.SteadyPlan]
  rw [ofFile, h]
  exact ofFeed_of_undisturbed interpreter sealer
    (StreamFeed.undisturbed_of_steadyPlan hsteady _ sealer blockSize) _ _

end Compilation

end SealedModules
