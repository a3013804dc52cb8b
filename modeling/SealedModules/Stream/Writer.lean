/-
# Writers

A writer is offered bytes write by write, and need not take all of them.
`writeAll` is the loop that offers the rest again until nothing is left; it
makes no write for no bytes.  Whatever has a single write is written through
it: the outputs, and the sealing writers in front of them.

A lawful writer takes something of what it is offered, unless it fails.  The
loop then ends in a failed write or with everything taken, and that is its
whole law (`writeAll_runs`).
-/
import SealedModules.Bytes
import SealedModules.Fault

namespace SealedModules

/-- What bytes can be written to. -/
class Writer (ω : Type) where
  /-- one write: how many bytes were taken, or a fault, and the writer afterwards -/
  write : ω → Bytes → Except Fault Nat × ω

namespace Writer

variable {ω : Type} [Writer ω]

/-- Writes until all bytes are taken or a write fails. -/
def writeAll (w : ω) (bytes : Bytes) : Except Fault Unit × ω :=
  if hb : bytes = [] then (.ok (), w)
  else
    match write w bytes with
    | (.error fault, w) => (.error fault, w)
    | (.ok count, w) =>
      if h : 0 < count then
        have : (bytes.drop count).length < bytes.length := by
          have := List.length_pos_iff.mpr hb
          simp only [List.length_drop]
          omega
        writeAll w (bytes.drop count)
      else (.error .noProgress, w)
termination_by bytes.length

end Writer

/-- A writer that takes something of what it is offered, unless it fails. -/
class LawfulWriter (ω : Type) [Writer ω] : Prop where
  count_pos : ∀ {w w' : ω} {bytes : Bytes} {count : Nat}, bytes ≠ [] →
    Writer.write w bytes = (.ok count, w') → 0 < count

namespace Writer

variable {ω : Type} [Writer ω] [LawfulWriter ω]

/-- What holds of writing nothing and of a write that fails, and is carried
over from the rest to what a write took the first part of, holds of the
loop. -/
theorem writeAll_runs {R : ω → Bytes → Except Fault Unit × ω → Prop}
    (done : ∀ w, R w [] (.ok (), w))
    (failed : ∀ {w w' bytes fault}, bytes ≠ [] → write w bytes = (.error fault, w') →
      R w bytes (.error fault, w'))
    (taken : ∀ {w w' bytes count result}, bytes ≠ [] → write w bytes = (.ok count, w') →
      R w' (bytes.drop count) result → R w bytes result)
    (w : ω) (bytes : Bytes) : R w bytes (writeAll w bytes) := by
  fun_induction writeAll w bytes with
  | case1 w => exact done w
  | case2 w bytes hb fault w' hwrite => exact failed hb hwrite
  | case3 w bytes hb count w' hwrite hcount _ ih => exact taken hb hwrite ih
  | case4 w bytes hb count w' hwrite hcount =>
      exact absurd (LawfulWriter.count_pos hb hwrite) hcount

end Writer

end SealedModules
