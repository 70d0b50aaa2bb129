import Vtxo.Bytes

/-!
# SHA-256

The message is padded to blocks of sixteen words; each block is stretched to a schedule of 64 words, and
each word of the schedule turns the eight-word state once.

  1. `length_pad`: the padded message is a whole number of blocks.
-/

set_option autoImplicit false

namespace Vtxo.Sha256

/-- The eight words that are carried from block to block. -/
structure State where
  a : UInt32
  b : UInt32
  c : UInt32
  d : UInt32
  e : UInt32
  f : UInt32
  g : UInt32
  h : UInt32
deriving DecidableEq

/-- The state before the first block: square roots of the first eight primes. -/
def start : State :=
  ⟨0x6a09e667, 0xbb67ae85, 0x3c6ef372, 0xa54ff53a,
    0x510e527f, 0x9b05688c, 0x1f83d9ab, 0x5be0cd19⟩

/-- One word for each of the 64 turns: cube roots of the first 64 primes. -/
def roundWords : List UInt32 :=
  [0x428a2f98, 0x71374491, 0xb5c0fbcf, 0xe9b5dba5, 0x3956c25b, 0x59f111f1, 0x923f82a4, 0xab1c5ed5,
   0xd807aa98, 0x12835b01, 0x243185be, 0x550c7dc3, 0x72be5d74, 0x80deb1fe, 0x9bdc06a7, 0xc19bf174,
   0xe49b69c1, 0xefbe4786, 0x0fc19dc6, 0x240ca1cc, 0x2de92c6f, 0x4a7484aa, 0x5cb0a9dc, 0x76f988da,
   0x983e5152, 0xa831c66d, 0xb00327c8, 0xbf597fc7, 0xc6e00bf3, 0xd5a79147, 0x06ca6351, 0x14292967,
   0x27b70a85, 0x2e1b2138, 0x4d2c6dfc, 0x53380d13, 0x650a7354, 0x766a0abb, 0x81c2c92e, 0x92722c85,
   0xa2bfe8a1, 0xa81a664b, 0xc24b8b70, 0xc76c51a3, 0xd192e819, 0xd6990624, 0xf40e3585, 0x106aa070,
   0x19a4c116, 0x1e376c08, 0x2748774c, 0x34b0bcb5, 0x391c0cb3, 0x4ed8aa4a, 0x5b9cca4f, 0x682e6ff3,
   0x748f82ee, 0x78a5636f, 0x84c87814, 0x8cc70208, 0x90befffa, 0xa4506ceb, 0xbef9a3f7, 0xc67178f2]

def rotateRight (x : UInt32) (n : UInt32) : UInt32 :=
  (x >>> n) ||| (x <<< (32 - n))

/-! ## Padding -/

/-- How many zero bytes follow the mark so that the length ends a block. -/
def zeroCount (length : Nat) : Nat :=
  (119 - length % 64) % 64

/-- The message, a mark, zeros, and its length in bits as eight bytes. -/
def pad (message : Bytes) : Bytes :=
  message ++ 0x80 :: (List.replicate (zeroCount message.length) 0 ++ Bytes.natBE 8 (8 * message.length))

theorem length_pad (message : Bytes) : (pad message).length % 64 = 0 := by
  simp only [pad, zeroCount, List.length_append, List.length_cons, List.length_replicate,
    Bytes.length_natBE]
  omega

/-! ## Blocks -/

/-- The words of a byte string, most significant byte first; bytes that fill no word are dropped. -/
def words : Bytes → List UInt32
  | a :: b :: c :: d :: rest =>
    ((a.toUInt32 <<< 24) ||| (b.toUInt32 <<< 16) ||| (c.toUInt32 <<< 8) ||| d.toUInt32) :: words rest
  | _ => []

/-- The word of the schedule that follows `latest`, which holds the words so far, the last one first. -/
def nextWord (latest : List UInt32) : UInt32 :=
  let w2 := latest.getD 1 0
  let w7 := latest.getD 6 0
  let w15 := latest.getD 14 0
  let w16 := latest.getD 15 0
  let s0 := rotateRight w15 7 ^^^ rotateRight w15 18 ^^^ (w15 >>> 3)
  let s1 := rotateRight w2 17 ^^^ rotateRight w2 19 ^^^ (w2 >>> 10)
  w16 + s0 + w7 + s1

/-- `count` more words of the schedule in front of `latest`. -/
def extend : Nat → List UInt32 → List UInt32
  | 0, latest => latest
  | count + 1, latest => extend count (nextWord latest :: latest)

/-- The 64 words of a block's schedule. -/
def schedule (block : List UInt32) : List UInt32 :=
  -- The schedule grows at its front, where the words that the next one depends on are.
  (extend 48 block.reverse).reverse

/-- One turn of the state with a round word and a schedule word. -/
def turn (s : State) (round word : UInt32) : State :=
  let s1 := rotateRight s.e 6 ^^^ rotateRight s.e 11 ^^^ rotateRight s.e 25
  let choice := (s.e &&& s.f) ^^^ (~~~ s.e &&& s.g)
  let t1 := s.h + s1 + choice + round + word
  let s0 := rotateRight s.a 2 ^^^ rotateRight s.a 13 ^^^ rotateRight s.a 22
  let majority := (s.a &&& s.b) ^^^ (s.a &&& s.c) ^^^ (s.b &&& s.c)
  ⟨t1 + (s0 + majority), s.a, s.b, s.c, s.d + t1, s.e, s.f, s.g⟩

/-- All turns of a schedule. -/
def turns (s : State) (rounds words : List UInt32) : State :=
  (rounds.zip words).foldl (fun s pair => turn s pair.1 pair.2) s

/-- The state after one block. -/
def compress (s : State) (block : List UInt32) : State :=
  let t := turns s roundWords (schedule block)
  ⟨s.a + t.a, s.b + t.b, s.c + t.c, s.d + t.d, s.e + t.e, s.f + t.f, s.g + t.g, s.h + t.h⟩

/-- The state after `count` blocks of the padded words. -/
def absorb : Nat → List UInt32 → State → State
  | 0, _, s => s
  | count + 1, padded, s => absorb count (padded.drop 16) (compress s (padded.take 16))

/-! ## Digest -/

/-- A word, most significant byte first. -/
def wordBytes (w : UInt32) : Bytes :=
  [(w >>> 24).toUInt8, (w >>> 16).toUInt8, (w >>> 8).toUInt8, w.toUInt8]

/-- The words of a state in order. -/
def State.bytes (s : State) : Sized 32 :=
  ⟨wordBytes s.a ++ wordBytes s.b ++ wordBytes s.c ++ wordBytes s.d ++
    wordBytes s.e ++ wordBytes s.f ++ wordBytes s.g ++ wordBytes s.h, rfl⟩

/-- The SHA-256 digest of a message. -/
def hash (message : Bytes) : Sized 32 :=
  let padded := words (pad message)
  (absorb (padded.length / 16) padded start).bytes

/-- The digest of the digest, which names transactions. -/
def hashTwice (message : Bytes) : Sized 32 :=
  hash (hash message).val

end Vtxo.Sha256
