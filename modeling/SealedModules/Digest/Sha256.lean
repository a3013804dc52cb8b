/-
# SHA-256

The hash of FIPS 180-4, which keys are turned into cipher tables with.  The
message is padded to whole blocks of 64 bytes, each block is expanded into a
schedule of 64 words, and 64 rounds mix the schedule into the eight working
words.  Words are big-endian here.
-/
import SealedModules.Bytes

namespace SealedModules

/-- A digest of 32 bytes. -/
abbrev Digest := Vector UInt8 32

namespace Sha256

/-- The eight words of the chaining state. -/
structure State where
  a : UInt32
  b : UInt32
  c : UInt32
  d : UInt32
  e : UInt32
  f : UInt32
  g : UInt32
  h : UInt32

/-- The state before the first block. -/
def initial : State where
  a := 0x6a09e667
  b := 0xbb67ae85
  c := 0x3c6ef372
  d := 0xa54ff53a
  e := 0x510e527f
  f := 0x9b05688c
  g := 0x1f83d9ab
  h := 0x5be0cd19

/-- The round constants. -/
def roundConstants : List UInt32 := [
  0x428a2f98, 0x71374491, 0xb5c0fbcf, 0xe9b5dba5, 0x3956c25b, 0x59f111f1, 0x923f82a4, 0xab1c5ed5,
  0xd807aa98, 0x12835b01, 0x243185be, 0x550c7dc3, 0x72be5d74, 0x80deb1fe, 0x9bdc06a7, 0xc19bf174,
  0xe49b69c1, 0xefbe4786, 0x0fc19dc6, 0x240ca1cc, 0x2de92c6f, 0x4a7484aa, 0x5cb0a9dc, 0x76f988da,
  0x983e5152, 0xa831c66d, 0xb00327c8, 0xbf597fc7, 0xc6e00bf3, 0xd5a79147, 0x06ca6351, 0x14292967,
  0x27b70a85, 0x2e1b2138, 0x4d2c6dfc, 0x53380d13, 0x650a7354, 0x766a0abb, 0x81c2c92e, 0x92722c85,
  0xa2bfe8a1, 0xa81a664b, 0xc24b8b70, 0xc76c51a3, 0xd192e819, 0xd6990624, 0xf40e3585, 0x106aa070,
  0x19a4c116, 0x1e376c08, 0x2748774c, 0x34b0bcb5, 0x391c0cb3, 0x4ed8aa4a, 0x5b9cca4f, 0x682e6ff3,
  0x748f82ee, 0x78a5636f, 0x84c87814, 0x8cc70208, 0x90befffa, 0xa4506ceb, 0xbef9a3f7, 0xc67178f2]

/-- Rotation of a word to the right. -/
def rotate (x : UInt32) (n : UInt32) : UInt32 := (x >>> n) ||| (x <<< (32 - n))

/-- The message with a one bit, zeros and its length in bits, in whole
blocks of 64 bytes. -/
def pad (message : Bytes) : Bytes :=
  let zeros := (119 - message.length % 64) % 64
  let bits := 8 * message.length
  let ending : Bytes := (List.range 8).map fun i => UInt8.ofNat (bits >>> (8 * (7 - i)))
  message ++ [0x80] ++ List.replicate zeros 0 ++ ending

/-- Four bytes read as a word. -/
def word (b₀ b₁ b₂ b₃ : UInt8) : UInt32 :=
  (b₀.toUInt32 <<< 24) ||| (b₁.toUInt32 <<< 16) ||| (b₂.toUInt32 <<< 8) ||| b₃.toUInt32

/-- The words of a block. -/
def words : Bytes → List UInt32
  | b₀ :: b₁ :: b₂ :: b₃ :: rest => word b₀ b₁ b₂ b₃ :: words rest
  | _ => []

/-- The word that follows the last sixteen of a schedule. -/
def nextWord (schedule : Array UInt32) : UInt32 :=
  let back (n : Nat) : UInt32 := schedule.getD (schedule.size - n) 0
  let w₁₅ := back 15
  let w₂ := back 2
  let s₀ := rotate w₁₅ 7 ^^^ rotate w₁₅ 18 ^^^ (w₁₅ >>> 3)
  let s₁ := rotate w₂ 17 ^^^ rotate w₂ 19 ^^^ (w₂ >>> 10)
  back 16 + s₀ + back 7 + s₁

/-- The schedule of 64 words grown from a block's sixteen. -/
def schedule (block : List UInt32) : List UInt32 :=
  ((List.range 48).foldl (fun ws _ => ws.push (nextWord ws)) block.toArray).toList

/-- One round with a round constant and a schedule word. -/
def round (s : State) (k w : UInt32) : State :=
  let big₁ := rotate s.e 6 ^^^ rotate s.e 11 ^^^ rotate s.e 25
  let choice := (s.e &&& s.f) ^^^ (~~~s.e &&& s.g)
  let t₁ := s.h + big₁ + choice + k + w
  let big₀ := rotate s.a 2 ^^^ rotate s.a 13 ^^^ rotate s.a 22
  let majority := (s.a &&& s.b) ^^^ (s.a &&& s.c) ^^^ (s.b &&& s.c)
  { a := t₁ + (big₀ + majority), b := s.a, c := s.b, d := s.c,
    e := s.d + t₁, f := s.e, g := s.f, h := s.g }

/-- The state after one block. -/
def compress (s : State) (block : Bytes) : State :=
  let t := (roundConstants.zip (schedule (words block))).foldl (fun s kw => round s kw.1 kw.2) s
  { a := s.a + t.a, b := s.b + t.b, c := s.c + t.c, d := s.d + t.d,
    e := s.e + t.e, f := s.f + t.f, g := s.g + t.g, h := s.h + t.h }

/-- The state after a whole padded message. -/
def final (message : Bytes) : State :=
  ((pad message).chunks 64).foldl compress initial

/-- The words of a state in order. -/
def State.words (s : State) : Vector UInt32 8 := #v[s.a, s.b, s.c, s.d, s.e, s.f, s.g, s.h]

/-- The digest of a message. -/
def digest (message : Bytes) : Digest :=
  let ws := (final message).words
  Vector.ofFn fun i : Fin 32 =>
    (ws.get ⟨i.val / 4, by omega⟩ >>> UInt32.ofNat (8 * (3 - i.val % 4))).toUInt8

end Sha256

end SealedModules
