import Vtxo.Hash.Sha256

/-!
# RIPEMD-160

Two lines of five rounds run over the same block of sixteen words, each with its own word order, shifts,
constants and mixing functions, and are added crosswise. `hash160` is the digest scripts commit to: RIPEMD-160 of SHA-256.

  1. `length_pad`: the padded message is a whole number of blocks.
-/

set_option autoImplicit false

namespace Vtxo.Ripemd160

/-- The five words that are carried from block to block. -/
structure State where
  a : UInt32
  b : UInt32
  c : UInt32
  d : UInt32
  e : UInt32
deriving DecidableEq

def start : State :=
  ⟨0x67452301, 0xefcdab89, 0x98badcfe, 0x10325476, 0xc3d2e1f0⟩

/-- Which word of the block each step of the left line takes. -/
def leftOrder : List (List Nat) :=
  [[0, 1, 2, 3, 4, 5, 6, 7, 8, 9, 10, 11, 12, 13, 14, 15],
   [7, 4, 13, 1, 10, 6, 15, 3, 12, 0, 9, 5, 2, 14, 11, 8],
   [3, 10, 14, 4, 9, 15, 8, 1, 2, 7, 0, 6, 13, 11, 5, 12],
   [1, 9, 11, 10, 0, 8, 12, 4, 13, 3, 7, 15, 14, 5, 6, 2],
   [4, 0, 5, 9, 7, 12, 2, 10, 14, 1, 3, 8, 11, 6, 15, 13]]

/-- Which word of the block each step of the right line takes. -/
def rightOrder : List (List Nat) :=
  [[5, 14, 7, 0, 9, 2, 11, 4, 13, 6, 15, 8, 1, 10, 3, 12],
   [6, 11, 3, 7, 0, 13, 5, 10, 14, 15, 8, 12, 4, 9, 1, 2],
   [15, 5, 1, 3, 7, 14, 6, 9, 11, 8, 12, 2, 10, 0, 4, 13],
   [8, 6, 4, 1, 3, 11, 15, 0, 5, 12, 2, 13, 9, 7, 10, 14],
   [12, 15, 10, 4, 1, 5, 8, 7, 6, 2, 13, 14, 0, 3, 9, 11]]

/-- How far each step of the left line rotates. -/
def leftShifts : List (List UInt32) :=
  [[11, 14, 15, 12, 5, 8, 7, 9, 11, 13, 14, 15, 6, 7, 9, 8],
   [7, 6, 8, 13, 11, 9, 7, 15, 7, 12, 15, 9, 11, 7, 13, 12],
   [11, 13, 6, 7, 14, 9, 13, 15, 14, 8, 13, 6, 5, 12, 7, 5],
   [11, 12, 14, 15, 14, 15, 9, 8, 9, 14, 5, 6, 8, 6, 5, 12],
   [9, 15, 5, 11, 6, 8, 13, 12, 5, 12, 13, 14, 11, 8, 5, 6]]

/-- How far each step of the right line rotates. -/
def rightShifts : List (List UInt32) :=
  [[8, 9, 9, 11, 13, 15, 15, 5, 7, 7, 8, 11, 14, 14, 12, 6],
   [9, 13, 15, 7, 12, 8, 9, 11, 7, 7, 12, 7, 6, 15, 13, 11],
   [9, 7, 15, 11, 8, 6, 6, 14, 12, 13, 5, 14, 13, 13, 7, 5],
   [15, 5, 8, 11, 14, 14, 6, 14, 6, 9, 12, 9, 12, 5, 15, 8],
   [8, 5, 12, 9, 12, 5, 14, 6, 8, 13, 6, 5, 15, 13, 11, 11]]

def leftConstants : List UInt32 :=
  [0x00000000, 0x5a827999, 0x6ed9eba1, 0x8f1bbcdc, 0xa953fd4e]

def rightConstants : List UInt32 :=
  [0x50a28be6, 0x5c4dd124, 0x6d703ef3, 0x7a6d76e9, 0x00000000]

/-- The mixing function of a round of the left line; the right line takes them in reverse order. -/
def mix (round : Nat) (x y z : UInt32) : UInt32 :=
  match round with
  | 0 => x ^^^ y ^^^ z
  | 1 => (x &&& y) ||| (~~~ x &&& z)
  | 2 => (x ||| ~~~ y) ^^^ z
  | 3 => (x &&& z) ||| (y &&& ~~~ z)
  | _ => x ^^^ (y ||| ~~~ z)

def rotateLeft (x n : UInt32) : UInt32 :=
  (x <<< n) ||| (x >>> (32 - n))

/-! ## Padding -/

/-- The message, a mark, zeros, and its length in bits as eight bytes, least significant first. -/
def pad (message : Bytes) : Bytes :=
  message ++ 0x80 ::
    (List.replicate (Sha256.zeroCount message.length) 0 ++ Bytes.natLE 8 (8 * message.length))

theorem length_pad (message : Bytes) : (pad message).length % 64 = 0 := by
  simp only [pad, Sha256.zeroCount, List.length_append, List.length_cons, List.length_replicate,
    Bytes.length_natLE]
  omega

/-! ## Blocks -/

/-- The words of a byte string, least significant byte first; bytes that fill no word are dropped. -/
def words : Bytes → List UInt32
  | a :: b :: c :: d :: rest =>
    (a.toUInt32 ||| (b.toUInt32 <<< 8) ||| (c.toUInt32 <<< 16) ||| (d.toUInt32 <<< 24)) :: words rest
  | _ => []

/-- One step: mix, add a word and a constant, rotate, and shift the state by one place. -/
def step (mixer : UInt32 → UInt32 → UInt32 → UInt32) (constant : UInt32) (s : State)
    (word shift : UInt32) : State :=
  let t := rotateLeft (s.a + mixer s.b s.c s.d + word + constant) shift + s.e
  ⟨s.e, t, s.b, rotateLeft s.c 10, s.d⟩

/-- The sixteen steps of one round. -/
def round (mixer : UInt32 → UInt32 → UInt32 → UInt32) (constant : UInt32) (block : List UInt32)
    (order : List Nat) (shifts : List UInt32) (s : State) : State :=
  (order.zip shifts).foldl (fun s pair => step mixer constant s (block.getD pair.1 0) pair.2) s

/-- The five rounds of one line, where round `i` mixes with function `mixer i`. -/
def line (mixer : Nat → UInt32 → UInt32 → UInt32 → UInt32) (constants : List UInt32)
    (orders : List (List Nat)) (shifts : List (List UInt32)) (block : List UInt32) (s : State) : State :=
  (List.range 5).foldl
    (fun s i => round (mixer i) (constants.getD i 0) block (orders.getD i []) (shifts.getD i []) s) s

/-- The state after one block. -/
def compress (s : State) (block : List UInt32) : State :=
  let l := line mix leftConstants leftOrder leftShifts block s
  let r := line (fun i => mix (4 - i)) rightConstants rightOrder rightShifts block s
  ⟨s.b + l.c + r.d, s.c + l.d + r.e, s.d + l.e + r.a, s.e + l.a + r.b, s.a + l.b + r.c⟩

/-- The state after `count` blocks of the padded words. -/
def absorb : Nat → List UInt32 → State → State
  | 0, _, s => s
  | count + 1, padded, s => absorb count (padded.drop 16) (compress s (padded.take 16))

/-! ## Digest -/

/-- A word, least significant byte first. -/
def wordBytes (w : UInt32) : Bytes :=
  [w.toUInt8, (w >>> 8).toUInt8, (w >>> 16).toUInt8, (w >>> 24).toUInt8]

def State.bytes (s : State) : Sized 20 :=
  ⟨wordBytes s.a ++ wordBytes s.b ++ wordBytes s.c ++ wordBytes s.d ++ wordBytes s.e, rfl⟩

/-- The RIPEMD-160 digest of a message. -/
def hash (message : Bytes) : Sized 20 :=
  let padded := words (pad message)
  (absorb (padded.length / 16) padded start).bytes

/-- RIPEMD-160 of the SHA-256 digest. -/
def hash160 (message : Bytes) : Sized 20 :=
  hash (Sha256.hash message).val

end Vtxo.Ripemd160
