import Mathlib.Data.List.Prime
import Mathlib.FieldTheory.Finite.Basic
import Mathlib.NumberTheory.LucasPrimality
import Mathlib.Tactic.NormNum.Prime
import WalletLedger.Crypto.Secp256k1

/-!
# The encodings of a public key

A key has two encodings: 33 bytes with `x` and the parity of `y`, and 65 bytes with both coordinates.
Reading accepts these and nothing else. Where only the parity of `y` is written, `y` is taken from a
square root, and that the root is found for every point rests on the order of the field: it is a
prime that leaves three modulo four.

* `Secp256k1.prime_p`: the order of the field is prime, by a certificate that the kernel checks.
* `Secp256k1.root_sq`: the root of a square is one of the two numbers that it is the square of.
* `PublicKey.ofX?_self`: a key is found from `x` and the parity of `y`.
* `PublicKey.decode?_eq_some_iff`: the strings that are read are the encodings of keys.
-/

namespace WalletLedger.Crypto

namespace Secp256k1

/-! ## Powers -/

/-- The residue of `base ^ e` modulo `m`, for an exponent below `2 ^ bits`. -/
def powMod (m base : Nat) : Nat → Nat → Nat
  | 0, _ => 1
  | bits + 1, e =>
    let half := powMod m base bits (e / 2)
    if e % 2 = 1 then half * half % m * base % m else half * half % m

/-- The powers in the field of the curve are those modulo its order. -/
theorem pow_eq_powMod (base bits e : Nat) : pow base bits e = powMod p base bits e := by
  induction bits generalizing e with
  | zero => rfl
  | succ bits ih => rw [pow, powMod, ih]

theorem powMod_lt {m : Nat} (hm : 1 < m) (base bits e : Nat) : powMod m base bits e < m := by
  cases bits with
  | zero => exact hm
  | succ bits =>
    have hpos : 0 < m := by omega
    unfold powMod
    dsimp only
    split <;> exact Nat.mod_lt _ hpos

/-- Repeated squaring computes a power. -/
theorem cast_powMod {m base bits e : Nat} (he : e < 2 ^ bits) :
    (powMod m base bits e : ZMod m) = (base : ZMod m) ^ e := by
  induction bits generalizing e with
  | zero =>
    have hzero : e = 0 := by simpa using he
    rw [hzero, powMod, Nat.cast_one, pow_zero]
  | succ bits ih =>
    have hhalf : e / 2 < 2 ^ bits := by
      rw [pow_succ] at he
      omega
    unfold powMod
    dsimp only
    split
    · have hsplit : e = e / 2 + e / 2 + 1 := by omega
      simp only [ZMod.natCast_mod, Nat.cast_mul, ih hhalf]
      conv_rhs => rw [hsplit, pow_succ, pow_add]
    · have hsplit : e = e / 2 + e / 2 := by omega
      simp only [ZMod.natCast_mod, Nat.cast_mul, ih hhalf]
      conv_rhs => rw [hsplit, pow_add]

theorem powMod_eq_one_iff {m base bits e : Nat} (hm : 1 < m) (he : e < 2 ^ bits) :
    powMod m base bits e = 1 ↔ (base : ZMod m) ^ e = 1 := by
  rw [← cast_powMod he, ← Nat.cast_one (R := ZMod m), ZMod.natCast_eq_natCast_iff',
    Nat.mod_eq_of_lt (powMod_lt hm base bits e), Nat.mod_eq_of_lt hm]

theorem cast_pow {base bits e : Nat} (he : e < 2 ^ bits) :
    (pow base bits e : ZMod p) = (base : ZMod p) ^ e := by
  rw [pow_eq_powMod, cast_powMod he]

/-! ## The order of the field is prime -/

/-- A number with a base whose powers modulo the number take all its residues but zero, and the prime
factors of the number less one, each as often as it divides. -/
structure Certificate where
  number : Nat
  base : Nat
  factors : List Nat

/-- Whether the base has the order that it should have. The factors are looked up among `known`. -/
def Certificate.passes (known : List Nat) (c : Certificate) : Bool :=
  decide (1 < c.number) && decide (c.number < 2 ^ 256) && c.factors.all (known.contains ·) &&
    c.factors.prod == c.number - 1 && powMod c.number c.base 256 (c.number - 1) == 1 &&
    c.factors.all fun q => powMod c.number c.base 256 ((c.number - 1) / q) != 1

/-- Whether certificates pass one after another, each with the numbers before it as known. -/
def allPass : List Nat → List Certificate → Bool
  | _, [] => true
  | known, c :: cs => c.passes known && allPass (c.number :: known) cs

/-- A number with a certificate is prime, if the known numbers are. -/
theorem Certificate.prime {known : List Nat} {c : Certificate} (hknown : ∀ q ∈ known, q.Prime)
    (h : c.passes known = true) : c.number.Prime := by
  simp only [passes, Bool.and_eq_true, decide_eq_true_eq, List.all_eq_true, List.contains_iff_mem,
    beq_iff_eq, bne_iff_ne] at h
  obtain ⟨⟨⟨⟨⟨hone, hlt⟩, hfactors⟩, hprod⟩, hfull⟩, hparts⟩ := h
  apply lucas_primality c.number (c.base : ZMod c.number)
  · exact (powMod_eq_one_iff hone (by omega)).1 hfull
  · intro q hq hdvd hpart
    -- a prime that divides the product is one of the factors
    have hmem : q ∈ c.factors := by
      rw [← hprod] at hdvd
      exact mem_list_primes_of_dvd_prod hq.prime (fun r hr => (hknown r (hfactors r hr)).prime) hdvd
    have hle : (c.number - 1) / q ≤ c.number - 1 := Nat.div_le_self _ _
    exact hparts q hmem ((powMod_eq_one_iff hone (by omega)).2 hpart)

theorem prime_of_allPass {known : List Nat} {cs : List Certificate} (hknown : ∀ q ∈ known, q.Prime)
    (h : allPass known cs = true) : ∀ c ∈ cs, c.number.Prime := by
  induction cs generalizing known with
  | nil => exact fun c hc => nomatch hc
  | cons c cs ih =>
    rw [allPass, Bool.and_eq_true] at h
    have hprime := c.prime hknown h.1
    intro c' hc'
    rcases List.mem_cons.1 hc' with rfl | hc'
    · exact hprime
    · -- from here on the number is known as well
      refine ih (fun q hq => ?_) h.2 c' hc'
      rcases List.mem_cons.1 hq with rfl | hq
      · exact hprime
      · exact hknown q hq

/-- The primes that need no certificate. -/
def smallPrimes : List Nat :=
  [2, 3, 5, 7, 11, 29, 31, 53, 1627, 2621, 2657, 4423, 5323, 7723, 13441, 24809, 41201, 96557,
    7240687, 13331831]

/-- The certificates that lead to the order of the field. -/
def certificates : List Certificate :=
  [⟨107590001, 3, [2, 2, 2, 2, 5, 5, 5, 5, 7, 29, 53]⟩,
    ⟨173378833005251801, 6, [2, 2, 2, 5, 5, 2621, 24809, 13331831]⟩,
    ⟨22149492674086928081353, 5, [2, 2, 2, 3, 5323, 173378833005251801]⟩,
    ⟨132896956044521568488119, 6, [2, 3, 22149492674086928081353]⟩,
    ⟨255515944373312847190720520512484175977, 3,
      [2, 2, 2, 7, 7, 11, 1627, 2657, 4423, 41201, 96557, 7240687, 107590001]⟩,
    ⟨205115282021455665897114700593932402728804164701536103180137503955397371, 10,
      [2, 3, 5, 29, 29, 31, 7723, 132896956044521568488119,
        255515944373312847190720520512484175977]⟩,
    ⟨p, 3,
      [2, 3, 7, 13441, 205115282021455665897114700593932402728804164701536103180137503955397371]⟩]

theorem prime_of_mem_smallPrimes : ∀ q ∈ smallPrimes, q.Prime := by
  simp only [smallPrimes, List.forall_mem_cons, List.not_mem_nil, false_imp_iff, implies_true]
  norm_num

theorem allPass_certificates : allPass smallPrimes certificates = true := by
  decide +kernel

/-- The order of the field is prime. -/
theorem prime_p : p.Prime :=
  prime_of_allPass prime_of_mem_smallPrimes allPass_certificates
    (certificates.getLast (List.cons_ne_nil _ _)) (List.getLast_mem _)

/-! ## Roots -/

/-- The root of a square is one of the two numbers that it is the square of. -/
theorem root_sq {y : Nat} (hy : y < p) : root (y * y % p) = y ∨ root (y * y % p) + y = p := by
  have : Fact p.Prime := ⟨prime_p⟩
  set r := root (y * y % p) with hr
  have hrlt : r < p := pow_lt _ _ _
  have hcast : (r : ZMod p) = ((y : ZMod p) ^ 2) ^ ((p + 1) / 4) := by
    rw [hr, root, cast_pow (by norm_num [p]), ZMod.natCast_mod, Nat.cast_mul, sq]
  -- `p` leaves three modulo four, so that the exponents multiply to `p + 1`
  have hexp : 2 * ((p + 1) / 4 * 2) = p + 1 := by norm_num [p]
  have hsq : (r : ZMod p) ^ 2 = (y : ZMod p) ^ 2 := by
    calc (r : ZMod p) ^ 2 = (y : ZMod p) ^ (p + 1) := by rw [hcast, ← pow_mul, ← pow_mul, hexp]
      _ = (y : ZMod p) ^ 2 := by rw [pow_succ, ZMod.pow_card, sq]
  rcases sq_eq_sq_iff_eq_or_eq_neg.1 hsq with hsame | hneg
  · left
    rwa [ZMod.natCast_eq_natCast_iff', Nat.mod_eq_of_lt hrlt, Nat.mod_eq_of_lt hy] at hsame
  · -- both are below `p`, so their sum is zero or `p`
    have hdvd : p ∣ r + y := by
      rw [← ZMod.natCast_eq_zero_iff, Nat.cast_add, hneg, neg_add_cancel]
    obtain ⟨k, hk⟩ := hdvd
    have hsmall : k < 2 := by
      by_contra hge
      have hle := Nat.mul_le_mul_left p (Nat.le_of_not_lt hge)
      omega
    obtain rfl | rfl : k = 0 ∨ k = 1 := by omega
    · omega
    · omega

/-- Of the root of a square and its negative, the one with the parity of `y` is `y`. -/
theorem choose_root_sq {y : Nat} (hy : y < p) :
    (if (root (y * y % p) % 2 == 1) = (y % 2 == 1) then root (y * y % p)
      else p - root (y * y % p)) = y := by
  rcases root_sq hy with hroot | hroot
  · rw [hroot, if_pos rfl]
  · have hodd : p % 2 = 1 := by decide
    have hne : ¬(root (y * y % p) % 2 == 1) = (y % 2 == 1) := by
      rw [Bool.eq_iff_iff, beq_iff_eq, beq_iff_eq]
      omega
    rw [if_neg hne]
    omega

end Secp256k1

open Secp256k1

/-- The two forms of an encoding. -/
inductive KeyForm where
  | compressed
  | uncompressed
  deriving DecidableEq

namespace PublicKey

variable {k : PublicKey} {bs : Bytes}

/-- The encoding of a key in a form: the parity byte and `x`, or the byte 4 and both coordinates. -/
def encode (k : PublicKey) : KeyForm → Bytes
  | .compressed => k.compressed
  | .uncompressed => 4 :: (Bytes.ofNatBE 32 k.x ++ Bytes.ofNatBE 32 k.y)

theorem length_encode (k : PublicKey) (form : KeyForm) :
    (k.encode form).length = 33 ∨ (k.encode form).length = 65 := by
  cases form with
  | compressed => exact .inl k.length_compressed
  | uncompressed => exact .inr (by simp [encode])

theorem y_lt (k : PublicKey) : k.y < 1 <<< 256 := Nat.lt_trans k.isPoint.2.1 (by decide)

theorem ofCoordinates?_self (k : PublicKey) : ofCoordinates? k.x k.y = some k := dif_pos k.isPoint

/-- A key is found from `x` and the parity of `y`. -/
theorem ofX?_self (k : PublicKey) : ofX? (k.y % 2 == 1) k.x = some k := by
  have hcurve := k.isPoint.2.2
  unfold ofX?
  dsimp only
  rw [← hcurve, choose_root_sq k.isPoint.2.1, ofCoordinates?_self]

/-- Every key is read from each of its encodings. -/
theorem decode?_encode (k : PublicKey) (form : KeyForm) : decode? (k.encode form) = some k := by
  cases form with
  | compressed => exact decode?_compressed_of_ofX? k.ofX?_self
  | uncompressed =>
    have hx : Bytes.toNatBE (Bytes.ofNatBE 32 k.x) = k.x := Bytes.toNatBE_ofNatBE 32 k.x k.x_lt
    have hy : Bytes.toNatBE (Bytes.ofNatBE 32 k.y) = k.y := Bytes.toNatBE_ofNatBE 32 k.y k.y_lt
    simp [encode, decode?, hx, hy, ofCoordinates?_self]

/-- What a key is found from by `x` and a parity byte is its encoding. -/
theorem compressed_of_ofX? {odd : Bool} {tail : Bytes} (hlength : tail.length = 32)
    (h : ofX? odd (Bytes.toNatBE tail) = some k) :
    k.encode .compressed = (if odd then 3 else 2) :: tail := by
  obtain ⟨hx, hodd⟩ := eq_of_ofX? h
  rw [encode, compressed, hodd, hx, Bytes.ofNatBE_toNatBE hlength]

/-- What a key is found from by both coordinates is its encoding. -/
theorem uncompressed_of_ofCoordinates? {tail : Bytes} (hlength : tail.length = 64)
    (h : ofCoordinates? (Bytes.toNatBE (tail.take 32)) (Bytes.toNatBE (tail.drop 32)) = some k) :
    k.encode .uncompressed = 4 :: tail := by
  obtain ⟨hx, hy⟩ := eq_of_ofCoordinates? h
  have htake : (tail.take 32).length = 32 := by
    rw [List.length_take]
    omega
  have hdrop : (tail.drop 32).length = 32 := by
    rw [List.length_drop]
    omega
  rw [encode, hx, hy, Bytes.ofNatBE_toNatBE htake, Bytes.ofNatBE_toNatBE hdrop, List.take_append_drop]

/-- What is read is an encoding of the key that is found. -/
theorem eq_encode_of_decode? (h : decode? bs = some k) : ∃ form, bs = k.encode form := by
  unfold decode? at h
  split at h
  · cases h
  · rename_i head tail
    split at h
    · rename_i hlength
      refine ⟨.compressed, ?_⟩
      split at h
      · rename_i hhead
        rw [compressed_of_ofX? hlength h, hhead]
        rfl
      · split at h
        · rename_i hhead
          rw [compressed_of_ofX? hlength h, hhead]
          rfl
        · cases h
    · split at h
      · rename_i hlong
        obtain ⟨hlength, hhead⟩ := hlong
        refine ⟨.uncompressed, ?_⟩
        rw [uncompressed_of_ofCoordinates? hlength h, hhead]
      · cases h

/-- **A string is read as a key if and only if it is an encoding of it.** -/
theorem decode?_eq_some_iff : decode? bs = some k ↔ ∃ form, bs = k.encode form := by
  constructor
  · exact eq_encode_of_decode?
  · rintro ⟨form, rfl⟩
    exact k.decode?_encode form

end PublicKey

end WalletLedger.Crypto
