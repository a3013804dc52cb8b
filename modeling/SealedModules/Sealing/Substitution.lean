/-
# The payload cipher

Payloads are read and written in pieces of any size, so the cipher may not
depend on where a byte stands: it is a substitution, a permutation of the
256 byte values with its inverse.  A key gives its permutation by a
Fisher–Yates shuffle that draws its bytes from a chain of digests, each the
hash of the one before, the first the hash of the key.

The hash is a parameter of the construction: that the two tables undo each
other does not rest on any property of it.
-/
import SealedModules.Digest.Sha256

namespace SealedModules

/-- A table with an entry for every byte value. -/
abbrev ByteTable := Vector UInt8 256

namespace ByteTable

/-- The entry of a byte. -/
def entry (t : ByteTable) (b : UInt8) : UInt8 := t.get ⟨b.toNat, b.toNat_lt⟩

/-- The table that sends every byte to itself. -/
def identity : ByteTable := Vector.ofFn fun i => UInt8.ofNat i.val

/-- The table that leads from every entry of `t` back to its index (where
two indices share an entry, to the later one). -/
def inverse (t : ByteTable) : ByteTable :=
  (List.finRange 256).foldl
    (fun inv i => inv.set (t.get i).toNat (UInt8.ofNat i.val) (t.get i).toNat_lt) identity

end ByteTable

/-- A place in an endless chain of digests. -/
structure DigestChain where
  digest : Digest
  used : Nat

namespace DigestChain

/-- The chain that starts with the hash of `seed`. -/
def ofSeed (hash : Bytes → Digest) (seed : Bytes) : DigestChain := ⟨hash seed, 0⟩

/-- The next byte of the chain; an exhausted digest is hashed again. -/
def next (hash : Bytes → Digest) (chain : DigestChain) : UInt8 × DigestChain :=
  if h : chain.used < 32 then (chain.digest.get ⟨chain.used, h⟩, ⟨chain.digest, chain.used + 1⟩)
  else
    let digest := hash chain.digest.toList
    (digest.get 0, ⟨digest, 1⟩)

end DigestChain

/-- A byte substitution with its inverse. -/
structure Substitution where
  forward : ByteTable
  backward : ByteTable

namespace Substitution

/-- The entries up to `i` shuffled: from `i` down, each is swapped with one
at or below it that the chain picks. -/
def shuffle (hash : Bytes → Digest) :
    (i : Nat) → i < 256 → DigestChain → ByteTable → ByteTable
  | 0, _, _, t => t
  | i + 1, h, chain, t =>
    let j := (chain.next hash).1.toNat % (i + 2)
    have hj : j < 256 := Nat.lt_of_lt_of_le (Nat.mod_lt _ (by omega)) (by omega)
    shuffle hash i (by omega) (chain.next hash).2 (t.swap (i + 1) j h hj)

/-- The substitution that a key gives under a hash. -/
def ofKeyWith (hash : Bytes → Digest) (key : Bytes) : Substitution :=
  let forward := shuffle hash 255 (by omega) (.ofSeed hash key) ByteTable.identity
  ⟨forward, forward.inverse⟩

/-- The substitution of a key. -/
def ofKey (key : Bytes) : Substitution := ofKeyWith Sha256.digest key

/-- Plain bytes enciphered one by one. -/
def encipher (s : Substitution) (plain : Bytes) : Bytes := plain.map s.forward.entry

/-- Enciphered bytes turned back one by one. -/
def decipher (s : Substitution) (enciphered : Bytes) : Bytes := enciphered.map s.backward.entry

end Substitution

end SealedModules
