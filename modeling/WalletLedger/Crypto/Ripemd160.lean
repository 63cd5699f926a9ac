import WalletLedger.Crypto.Sha256

/-!
# RIPEMD-160

Two lines of eighty steps read each block in their own order and are added at its end.

* `length_hash160`: a key hash has twenty bytes.
-/

namespace WalletLedger.Crypto

namespace Ripemd160

/-- Five words: the working variables of a step and the chaining value between blocks. -/
structure State where
  a : UInt32
  b : UInt32
  c : UInt32
  d : UInt32
  e : UInt32

/-- What sets one step apart: the bit function, the added constant, the message word that is read
and the rotation. -/
structure Step where
  mix : UInt32 → UInt32 → UInt32 → UInt32
  constant : UInt32
  word : Nat
  rotation : UInt32

/-- Rotates a word left by `n` bits, for `0 < n < 32`. -/
def rotateLeft (x n : UInt32) : UInt32 := (x <<< n) ||| (x >>> (32 - n))

/-- The five bit functions, one for each sixteen steps of the left line. -/
def mixes : List (UInt32 → UInt32 → UInt32 → UInt32) := [
  fun x y z => x ^^^ y ^^^ z,
  fun x y z => (x &&& y) ||| (~~~ x &&& z),
  fun x y z => (x ||| ~~~ y) ^^^ z,
  fun x y z => (x &&& z) ||| (y &&& ~~~ z),
  fun x y z => x ^^^ (y ||| ~~~ z)]

/-- A line of five groups of sixteen steps. -/
def line (mixes : List (UInt32 → UInt32 → UInt32 → UInt32)) (constants : List UInt32)
    (words : List (List Nat)) (rotations : List (List UInt32)) : List Step :=
  (mixes.zip (constants.zip (words.zip rotations))).flatMap fun (mix, constant, ws, rs) =>
    (ws.zip rs).map fun (w, r) => ⟨mix, constant, w, r⟩

/-- The left line. -/
def left : List Step := line mixes
  [0x00000000, 0x5a827999, 0x6ed9eba1, 0x8f1bbcdc, 0xa953fd4e]
  [[0, 1, 2, 3, 4, 5, 6, 7, 8, 9, 10, 11, 12, 13, 14, 15],
   [7, 4, 13, 1, 10, 6, 15, 3, 12, 0, 9, 5, 2, 14, 11, 8],
   [3, 10, 14, 4, 9, 15, 8, 1, 2, 7, 0, 6, 13, 11, 5, 12],
   [1, 9, 11, 10, 0, 8, 12, 4, 13, 3, 7, 15, 14, 5, 6, 2],
   [4, 0, 5, 9, 7, 12, 2, 10, 14, 1, 3, 8, 11, 6, 15, 13]]
  [[11, 14, 15, 12, 5, 8, 7, 9, 11, 13, 14, 15, 6, 7, 9, 8],
   [7, 6, 8, 13, 11, 9, 7, 15, 7, 12, 15, 9, 11, 7, 13, 12],
   [11, 13, 6, 7, 14, 9, 13, 15, 14, 8, 13, 6, 5, 12, 7, 5],
   [11, 12, 14, 15, 14, 15, 9, 8, 9, 14, 5, 6, 8, 6, 5, 12],
   [9, 15, 5, 11, 6, 8, 13, 12, 5, 12, 13, 14, 11, 8, 5, 6]]

/-- The right line, with the bit functions in reverse order. -/
def right : List Step := line mixes.reverse
  [0x50a28be6, 0x5c4dd124, 0x6d703ef3, 0x7a6d76e9, 0x00000000]
  [[5, 14, 7, 0, 9, 2, 11, 4, 13, 6, 15, 8, 1, 10, 3, 12],
   [6, 11, 3, 7, 0, 13, 5, 10, 14, 15, 8, 12, 4, 9, 1, 2],
   [15, 5, 1, 3, 7, 14, 6, 9, 11, 8, 12, 2, 10, 0, 4, 13],
   [8, 6, 4, 1, 3, 11, 15, 0, 5, 12, 2, 13, 9, 7, 10, 14],
   [12, 15, 10, 4, 1, 5, 8, 7, 6, 2, 13, 14, 0, 3, 9, 11]]
  [[8, 9, 9, 11, 13, 15, 15, 5, 7, 7, 8, 11, 14, 14, 12, 6],
   [9, 13, 15, 7, 12, 8, 9, 11, 7, 7, 12, 7, 6, 15, 13, 11],
   [9, 7, 15, 11, 8, 6, 6, 14, 12, 13, 5, 14, 13, 13, 7, 5],
   [15, 5, 8, 11, 14, 14, 6, 14, 6, 9, 12, 9, 12, 5, 15, 8],
   [8, 5, 12, 9, 12, 5, 14, 6, 8, 13, 6, 5, 15, 13, 11, 11]]

/-- One step on a block of sixteen words. -/
def apply (block : List UInt32) (s : State) (step : Step) : State :=
  let t := s.a + step.mix s.b s.c s.d + block.getD step.word 0 + step.constant
  ⟨s.e, rotateLeft t step.rotation + s.e, s.b, rotateLeft s.c 10, s.d⟩

/-- Absorbs one block of sixteen words. -/
def absorb (s : State) (block : List UInt32) : State :=
  let l := left.foldl (apply block) s
  let r := right.foldl (apply block) s
  ⟨s.b + l.c + r.d, s.c + l.d + r.e, s.d + l.e + r.a, s.e + l.a + r.b, s.a + l.b + r.c⟩

/-- The message, a one bit, zeros, and the length in bits, up to whole blocks of 64 bytes. -/
def pad (message : Bytes) : Bytes :=
  let zeros := (64 - (message.length + 9) % 64) % 64
  message ++ 0x80 :: List.replicate zeros 0 ++ Bytes.ofNatLE 8 (8 * message.length)

/-- The padded message as blocks of words, least significant byte first. -/
def blocks (message : Bytes) : List (List UInt32) :=
  let padded := pad message
  (Bytes.chunks 64 (padded.length / 64) padded).map fun block =>
    (Bytes.chunks 4 16 block).map fun word => UInt32.ofNat (Bytes.toNatBE word.reverse)

/-- The chaining value before the first block. -/
def initial : State := ⟨0x67452301, 0xefcdab89, 0x98badcfe, 0x10325476, 0xc3d2e1f0⟩

end Ripemd160

/-- The RIPEMD-160 digest of a message, 20 bytes. -/
def ripemd160 (message : Bytes) : Bytes :=
  let s := (Ripemd160.blocks message).foldl Ripemd160.absorb Ripemd160.initial
  [s.a, s.b, s.c, s.d, s.e].flatMap fun w => Bytes.ofNatLE 4 w.toNat

/-- The hash that stands for a public key in a script. -/
def hash160 (message : Bytes) : Bytes := ripemd160 (sha256 message)

@[simp] theorem length_hash160 (message : Bytes) : (hash160 message).length = 20 := by
  simp [hash160, ripemd160]

end WalletLedger.Crypto
