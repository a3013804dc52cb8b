/-
# Tables made in place

The tables of a key are made in place: places of a digest and of two tables
are looked up by numbers that are counted, taken off a digest, or read from a
table.  `Substitution.ofKeyWith?` makes them with every place checked, and has
no result if one is outside.  It always has one, and it is the substitution of
the key (`ofKeyWith?_eq`).  The position in a digest stays in range because a
new digest is taken just when the old one is used up, and the place to swap
with because it is a remainder.

The table of the way back is written over whatever was there.  That every
place of it is written rests on the way forth being a permutation
(`ByteTable.scatter_eq_inverse`), and the shuffle is one under any hash.
-/
import SealedModules.Proofs.Cipher

namespace SealedModules

/-! ## Tables -/

namespace ByteTable

/-- Two entries swapped, if the table has both places. -/
def swap? (t : ByteTable) (i j : Nat) : Option ByteTable :=
  if h : i < 256 ∧ j < 256 then some (t.swap i j h.1 h.2) else none

theorem swap?_of_lt (t : ByteTable) {i j : Nat} (hi : i < 256) (hj : j < 256) :
    t.swap? i j = some (t.swap i j hi hj) :=
  dif_pos ⟨hi, hj⟩

theorem toNat_get_lt (t : ByteTable) (i : Fin 256) : (t.get i).toNat < 256 := (t.get i).toNat_lt

/-- The indices of `t` written over a table, each at its entry. -/
def scatter (t start : ByteTable) : ByteTable :=
  (List.finRange 256).foldl
    (fun back i => back.set (t.get i).toNat (UInt8.ofNat i.val) (toNat_get_lt t i)) start

theorem ext_entry {t u : ByteTable} (h : ∀ b, t.entry b = u.entry b) : t = u := by
  apply Vector.ext
  intro i hi
  have hbyte : (UInt8.ofNat i).toNat = i := UInt8.toNat_ofNat_of_lt' hi
  have hentry := h (UInt8.ofNat i)
  simp only [entry, hbyte] at hentry
  exact hentry

/-- Nothing is left of what was there before. -/
theorem scatter_eq_inverse {t : ByteTable} (h : Function.Injective t.get) (start : ByteTable) :
    t.scatter start = t.inverse := by
  apply ext_entry
  intro c
  -- every byte is an entry, so its place is written
  obtain ⟨b, rfl⟩ : ∃ b, t.entry b = c := ⟨_, entry_inverse_entry h c⟩
  have hscatter := entry_foldl_set h (List.finRange 256) start ⟨b.toNat, b.toNat_lt⟩
  rw [if_pos (List.mem_finRange _)] at hscatter
  exact hscatter.trans (UInt8.ofNat_toNat.trans (inverse_entry_entry h b).symm)

end ByteTable

namespace Substitution

/-! ## The shuffle -/

/-- The shuffle from a position in a digest, with every place checked. -/
def shuffle? (hash : Bytes → Digest) :
    (i : Nat) → Digest → (position : Nat) → ByteTable → Option ByteTable
  | 0, _, _, t => some t
  | i + 1, digest, position, t => do
    let (digest, position) :=
      if position = 32 then (hash digest.toList, 0) else (digest, position)
    let byte ← digest[position]?
    let t ← t.swap? (i + 1) (byte.toNat % (i + 2))
    shuffle? hash i digest (position + 1) t

/-- The substitution of a key, with every place checked. -/
def ofKeyWith? (hash : Bytes → Digest) (key : Bytes) : Option Substitution := do
  let forward ← shuffle? hash 255 (hash key) 0 ByteTable.identity
  return ⟨forward, forward.scatter (Vector.replicate 256 0)⟩

variable (hash : Bytes → Digest)

theorem next_eq (digest : Digest) {position : Nat} (h : position ≤ 32) :
    let place := if position = 32 then (hash digest.toList, 0) else (digest, position)
    place.2 < 32 ∧ place.1[place.2]? = some (DigestChain.next hash ⟨digest, position⟩).1 ∧
      (DigestChain.next hash ⟨digest, position⟩).2 = ⟨place.1, place.2 + 1⟩ := by
  intro place
  by_cases hused : position = 32
  · have hplace : place = (hash digest.toList, 0) := if_pos hused
    have hnext : DigestChain.next hash ⟨digest, position⟩ =
        ((hash digest.toList).get 0, ⟨hash digest.toList, 1⟩) := dif_neg (by simp [hused])
    rw [hplace, hnext]
    have hfirst : 0 < 32 := by decide
    exact ⟨hfirst, Vector.getElem?_eq_getElem hfirst, rfl⟩
  · have hlt : position < 32 := by omega
    have hplace : place = (digest, position) := if_neg hused
    have hnext : DigestChain.next hash ⟨digest, position⟩ =
        (digest.get ⟨position, hlt⟩, ⟨digest, position + 1⟩) := dif_pos hlt
    rw [hplace, hnext]
    exact ⟨hlt, Vector.getElem?_eq_getElem hlt, rfl⟩

theorem shuffle?_eq {i : Nat} (hi : i < 256) (digest : Digest) {position : Nat}
    (hposition : position ≤ 32) (t : ByteTable) :
    shuffle? hash i digest position t = some (shuffle hash i hi ⟨digest, position⟩ t) := by
  induction i generalizing digest position t with
  | zero => rfl
  | succ i ih =>
      obtain ⟨hlt, hbyte, hchain⟩ := next_eq hash digest hposition
      rw [shuffle?, shuffle, hchain]
      generalize (if position = 32 then (hash digest.toList, 0) else (digest, position)) = place
        at hlt hbyte
      have hswap (byte : UInt8) := t.swap?_of_lt hi
        (show byte.toNat % (i + 2) < 256 from
          Nat.lt_of_lt_of_le (Nat.mod_lt _ (by omega)) (by omega))
      simp only [hbyte, hswap, Option.bind_eq_bind, Option.bind_some]
      exact ih _ _ hlt _

/-- Making the tables in place never fails to give a result, and it is the
substitution of the key. -/
theorem ofKeyWith?_eq (key : Bytes) : ofKeyWith? hash key = some (ofKeyWith hash key) := by
  have hlast : 255 < 256 := by decide
  obtain ⟨forward, hshuffle⟩ :
      ∃ t, shuffle hash 255 hlast (.ofSeed hash key) ByteTable.identity = t := ⟨_, rfl⟩
  have hforward : shuffle? hash 255 (hash key) 0 ByteTable.identity = some forward :=
    (shuffle?_eq hash hlast (hash key) (Nat.zero_le 32) _).trans (congrArg some hshuffle)
  have hinjective : Function.Injective forward.get :=
    hshuffle ▸ get_shuffle_injective hash 255 hlast _ ByteTable.get_identity_injective
  rw [ofKeyWith?, ofKeyWith, hforward, hshuffle]
  simp only [Option.bind_eq_bind, Option.bind_some, Option.pure_def,
    ByteTable.scatter_eq_inverse hinjective]

/-! ## Blocks -/

theorem flatten_map_encipher (s : Substitution) (blocks : List Bytes) :
    (blocks.map s.encipher).flatten = s.encipher blocks.flatten :=
  List.map_flatten.symm

theorem flatten_map_decipher (s : Substitution) (blocks : List Bytes) :
    (blocks.map s.decipher).flatten = s.decipher blocks.flatten :=
  List.map_flatten.symm

/-- Under any hash the tables of a key can be made without leaving a digest or a
table, the way forth is a permutation of the bytes, the way back undoes it and
is undone by it, and so enciphering and deciphering undo each other on any
bytes, however they are cut into blocks for the one and for the other. -/
theorem tables_of_a_key_undo_each_other (hash : Bytes → Digest) (key : Bytes) :
    let s := ofKeyWith hash key
    ofKeyWith? hash key = some s ∧ Function.Bijective s.forward.entry ∧
      (∀ b, s.backward.entry (s.forward.entry b) = b) ∧
      (∀ b, s.forward.entry (s.backward.entry b) = b) ∧
      (∀ blocks pieces : List Bytes, pieces.flatten = (blocks.map s.encipher).flatten →
        (pieces.map s.decipher).flatten = blocks.flatten) ∧
      ∀ blocks pieces : List Bytes, pieces.flatten = (blocks.map s.decipher).flatten →
        (pieces.map s.encipher).flatten = blocks.flatten := by
  intro s
  have hinvertible : s.Invertible := invertible_ofKeyWith hash key
  refine ⟨ofKeyWith?_eq hash key, ?_, hinvertible.backward_forward, hinvertible.forward_backward,
    ?_, ?_⟩
  · exact Function.bijective_iff_has_inverse.mpr
      ⟨s.backward.entry, hinvertible.backward_forward, hinvertible.forward_backward⟩
  · intro blocks pieces hcut
    rw [flatten_map_decipher, hcut, flatten_map_encipher, decipher_encipher hinvertible]
  · intro blocks pieces hcut
    rw [flatten_map_encipher, hcut, flatten_map_decipher, encipher_decipher hinvertible]

/-- Three bytes cut once for enciphering and elsewhere for deciphering, under a
hash that always gives the same digest. -/
theorem differently_cut_bytes_are_deciphered :
    let s := ofKeyWith (fun _ => Vector.replicate 32 200) []
    let blocks : List Bytes := [[], [1, 2], [3]]
    let pieces : List Bytes := [s.encipher [1], s.encipher [2, 3], []]
    pieces.flatten = (blocks.map s.encipher).flatten ∧
      (pieces.map s.decipher).flatten = blocks.flatten := by
  intro s blocks pieces
  have hcut : pieces.flatten = (blocks.map s.encipher).flatten := by
    simp [pieces, blocks, encipher]
  obtain ⟨-, -, -, -, hback, -⟩ :=
    tables_of_a_key_undo_each_other (fun _ => Vector.replicate 32 200) []
  exact ⟨hcut, hback blocks pieces hcut⟩

end Substitution

end SealedModules
