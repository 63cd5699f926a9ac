import WalletLedger.Bytes

/-!
# The SHA-2 hash functions

SHA-256 and SHA-512 run the same rounds on words of 32 and of 64 bits. `Sha2 ω` holds what sets them
apart, and `Sha2.digest` hashes with it.

* `Sha2.length_digest`: a digest has eight words.
-/

namespace WalletLedger.Crypto

/-- Eight words: the working variables of a round and the chaining value between blocks. -/
structure Sha2.State (ω : Type) where
  a : ω
  b : ω
  c : ω
  d : ω
  e : ω
  f : ω
  g : ω
  h : ω

/-- A member of the family, over words of type `ω`. -/
structure Sha2 (ω : Type) where
  /-- Bytes in a word. -/
  width : Nat
  /-- The word of a number, modulo the word size. -/
  ofNat : Nat → ω
  toNat : ω → Nat
  /-- Mixes `a` in a round. -/
  sumA : ω → ω
  /-- Mixes `e` in a round. -/
  sumE : ω → ω
  /-- Mixes the schedule word fifteen back. -/
  sigma0 : ω → ω
  /-- Mixes the schedule word two back. -/
  sigma1 : ω → ω
  /-- One constant a round. -/
  constants : List ω
  initial : Sha2.State ω

namespace Sha2

variable {ω : Type} [Add ω] [AndOp ω] [XorOp ω] [Complement ω] (H : Sha2 ω)

/-- One round, with its constant `k` and schedule word `w`. -/
@[specialize] def round (s : State ω) (k w : ω) : State ω :=
  let choice := (s.e &&& s.f) ^^^ (~~~ s.e &&& s.g)
  let majority := (s.a &&& s.b) ^^^ (s.a &&& s.c) ^^^ (s.b &&& s.c)
  let t := s.h + H.sumE s.e + choice + k + w
  ⟨t + (H.sumA s.a + majority), s.a, s.b, s.c, s.d + t, s.e, s.f, s.g⟩

/-- The schedule word that follows `words`, which has the latest word first. -/
@[specialize] def nextWord (words : List ω) : ω :=
  let back (i : Nat) := words.getD (i - 1) (H.ofNat 0)
  back 16 + H.sigma0 (back 15) + back 7 + H.sigma1 (back 2)

/-- Extends a schedule by a number of words; the latest word comes first. -/
@[specialize] def schedule : Nat → List ω → List ω
  | 0, words => words
  | more + 1, words => schedule more (H.nextWord words :: words)

/-- Absorbs one block of sixteen words: one round for each constant and schedule word. -/
@[specialize] def absorb (s : State ω) (block : List ω) : State ω :=
  let words := (H.schedule (H.constants.length - 16) block.reverse).reverse
  let t := (H.constants.zip words).foldl (fun s (k, w) => H.round s k w) s
  ⟨s.a + t.a, s.b + t.b, s.c + t.c, s.d + t.d, s.e + t.e, s.f + t.f, s.g + t.g, s.h + t.h⟩

/-- Bytes in a block. -/
def blockLength : Nat := 16 * H.width

/-- The message, a one bit, zeros, and the length in bits in two words, up to whole blocks. -/
def pad (message : Bytes) : Bytes :=
  let used := message.length + 1 + 2 * H.width
  let zeros := (H.blockLength - used % H.blockLength) % H.blockLength
  message ++ 0x80 :: List.replicate zeros 0 ++ Bytes.ofNatBE (2 * H.width) (8 * message.length)

/-- The padded message as blocks of words. -/
def blocks (message : Bytes) : List (List ω) :=
  let padded := H.pad message
  (Bytes.chunks H.blockLength (padded.length / H.blockLength) padded).map fun block =>
    (Bytes.chunks H.width 16 block).map fun word => H.ofNat word.toNatBE

/-- The chaining value, written out. -/
def State.bytes (s : State ω) : Bytes :=
  [s.a, s.b, s.c, s.d, s.e, s.f, s.g, s.h].flatMap fun w => Bytes.ofNatBE H.width (H.toNat w)

/-- The digest of a message. -/
@[specialize] def digest (message : Bytes) : Bytes :=
  ((H.blocks message).foldl H.absorb H.initial).bytes H

theorem length_digest (message : Bytes) : (H.digest message).length = 8 * H.width := by
  simp [digest, State.bytes]; omega

end Sha2

end WalletLedger.Crypto
