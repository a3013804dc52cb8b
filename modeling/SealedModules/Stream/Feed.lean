/-
# Feeds

A feed hands out the bytes of a module block by block, until it says that
there are no more.  The interpreter takes in a feed to its end and does not
care where the bytes come from.  Every feed comes with a size that each
block makes smaller, so taking it in to its end always ends.

`Queue` is the plainest feed, a list of blocks; `BufferFeed` and
`StreamFeed` are the two the library loads from.
-/
import SealedModules.Stream.Reader
import SealedModules.Sealing.Sealer

namespace SealedModules

/-- A source of blocks that comes to an end. -/
class Feed (σ : Type) where
  /-- the next block, if there is one, and the feed afterwards -/
  next : σ → Option Bytes × σ
  /-- a bound on the number of blocks to come -/
  size : σ → Nat
  size_lt : ∀ {s : σ} {block : Bytes} {t : σ}, next s = (some block, t) → size t < size s

namespace Feed

/-- All bytes up to the first time the feed has no block, and the feed
afterwards. -/
def drain {σ : Type} [Feed σ] (s : σ) : Bytes × σ :=
  match h : next s with
  | (none, t) => ([], t)
  | (some block, t) =>
    have : size t < size s := size_lt h
    let (bytes, last) := drain t
    (block ++ bytes, last)
termination_by size s

end Feed

/-! ## Blocks in memory -/

/-- A list of blocks handed out in order. -/
structure Queue where
  blocks : List Bytes
deriving DecidableEq, Repr

/-- The first block of a queue. -/
def Queue.next : Queue → Option Bytes × Queue
  | ⟨[]⟩ => (none, ⟨[]⟩)
  | ⟨block :: blocks⟩ => (some block, ⟨blocks⟩)

instance : Feed Queue where
  next := Queue.next
  size queue := queue.blocks.length
  size_lt {s _ _} h := by
    rcases s with ⟨_ | ⟨block, blocks⟩⟩ <;> simp [Queue.next] at h
    simp [← h.2]

/-! ## A module in memory -/

/-- A module held in memory, handed out as one block. -/
structure BufferFeed where
  data : Bytes
  content : Content
  done : Bool := false
  consumed : Nat := 0
deriving DecidableEq, Repr

namespace BufferFeed

/-- The feed of a whole module file; a sealed payload is decoded at once. -/
def ofBytes (sealer : Sealer) (bytes : Bytes) : BufferFeed :=
  let content := sealer.classifyWhole bytes
  { content
    data := if content = .sealedModule then sealer.decode (bytes.drop Envelope.size) else bytes }

/-- The one block, unless it is empty. -/
def next (s : BufferFeed) : Option Bytes × BufferFeed :=
  if s.done ∨ s.data = [] then (none, { s with done := true })
  else (some s.data, { s with done := true, consumed := s.data.length })

instance : Feed BufferFeed where
  next := next
  size s := if s.done then 0 else 1
  size_lt {s _ _} h := by
    unfold next at h
    split at h
    · simp at h
    · rename_i hd
      have : s.done = false := by grind
      simp only [Prod.mk.injEq] at h
      simp [← h.2, this]

end BufferFeed

/-! ## A module read piece by piece -/

/-- A module read from a reader in blocks of one size. -/
structure StreamFeed where
  reader : Reader
  sealer : Sealer
  blockSize : Nat
  content : Content
  /-- bytes read to tell the content, still to be handed out -/
  replay : Bytes
  ended : Bool
  fault : Option Fault
  consumed : Nat := 0

namespace StreamFeed

/-- How many bytes tell the content: the envelope, or only the signature if
there are no sealed modules. -/
def lookahead (sealer : Sealer) : Nat :=
  if sealer.isProtecting then Envelope.size else 1

/-- The feed of a file announced to be `total` bytes long.  The first bytes
tell the content; they are handed out again unless they are the envelope.
Of a file announced to be empty nothing is read ahead, since its length may
be unknown; its content then counts as source. -/
def ofReader (reader : Reader) (total : Nat) (sealer : Sealer) (blockSize : Nat) : StreamFeed :=
  let (read, rest) := if total = 0 then (.ok [], reader) else reader.fill (lookahead sealer)
  let (lead, fault) : Bytes × Option Fault :=
    match read with
    | .ok lead => (lead, none)
    | .error fault => ([], some fault)
  let content := sealer.classify lead total
  { reader := rest
    sealer
    blockSize := max blockSize 1
    content
    replay := if content = .sealedModule then [] else lead
    ended := 0 < total && lead.length < lookahead sealer
    fault }

/-- A block as it is handed out. -/
def deliver (s : StreamFeed) (block : Bytes) : Bytes :=
  if s.content = .sealedModule then s.sealer.decode block else block

/-- The next block: what was read ahead, then blocks from the reader.  A
short block is the last one; a failed read ends the feed and is kept. -/
def next (s : StreamFeed) : Option Bytes × StreamFeed :=
  if s.replay ≠ [] then
    (some s.replay, { s with replay := [], consumed := s.consumed + s.replay.length })
  else if s.ended ∨ s.fault.isSome then (none, s)
  else
    match s.reader.fill s.blockSize with
    | (.error fault, reader) => (none, { s with reader, fault := some fault })
    | (.ok block, reader) =>
      if block = [] then (none, { s with reader, ended := true })
      else
        (some (s.deliver block),
          { s with
            reader
            ended := decide (block.length < s.blockSize)
            consumed := s.consumed + block.length })

/-- The fault that ended the feed, given out once. -/
def takeFault (s : StreamFeed) : Option Fault × StreamFeed := (s.fault, { s with fault := none })

instance : Feed StreamFeed where
  next := next
  size s := s.replay.length + s.reader.rest.length
  size_lt {s block t} h := by
    unfold next at h
    split at h
    · rename_i hr
      have := List.length_pos_iff.mpr hr
      simp only [Prod.mk.injEq] at h
      simp only [← h.2, List.length_nil]
      omega
    · split at h
      · simp at h
      · split at h
        · simp at h
        · rename_i got reader hf
          split at h
          · simp at h
          · rename_i hb
            have hp := List.length_pos_iff.mpr hb
            have hrest := congrArg List.length (Reader.rest_of_fill hf)
            simp only [Prod.mk.injEq] at h
            simp only [← h.2]
            simp only [List.length_append] at hrest
            omega

end StreamFeed

end SealedModules
