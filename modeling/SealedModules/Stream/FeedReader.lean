/-
# Reading a feed byte by byte

A `FeedReader` turns a feed into something that is read in pieces of the
reader's own choosing: it keeps what is left of the last block and takes the
next block when nothing is left, passing over empty ones.  After the feed
has once had no block it is not asked again.
-/
import SealedModules.Stream.Feed

namespace SealedModules

/-- A feed, what is left of its last block, and whether it has ended. -/
structure FeedReader (σ : Type) where
  feed : σ
  pending : Bytes := []
  done : Bool := false

namespace FeedReader

variable {σ : Type} [Feed σ]

/-- Blocks are taken until some bytes are pending or the feed has ended. -/
def refill (r : FeedReader σ) : FeedReader σ :=
  if r.pending ≠ [] ∨ r.done then r
  else
    match h : Feed.next r.feed with
    | (none, feed) => { feed, pending := [], done := true }
    | (some block, feed) =>
      have : Feed.size feed < Feed.size r.feed := Feed.size_lt h
      refill { feed, pending := block, done := false }
termination_by Feed.size r.feed

/-- One read of at most `size` bytes; no bytes for a `size` that is not zero
means the end. -/
def read (size : Nat) (r : FeedReader σ) : Bytes × FeedReader σ :=
  let r := r.refill
  (r.pending.take size, { r with pending := r.pending.drop size })

/-- Everything that is left. -/
def readToEnd (r : FeedReader σ) : Bytes × FeedReader σ :=
  if r.done then (r.pending, { r with pending := [] })
  else
    let (bytes, feed) := Feed.drain r.feed
    (r.pending ++ bytes, { feed, pending := [], done := true })

end FeedReader

end SealedModules
