import WalletLedger.Bytes

/-!
# Public keys on secp256k1

The curve `y ^ 2 = x ^ 3 + 7` over the integers modulo `p`. A `PublicKey` is a point of it other
than infinity, and its two encodings are the ones that scripts hold: 33 bytes with the parity of
`y`, and 65 bytes with both coordinates.

* `PublicKey.decode?_ofPoint?`: a key obtained from coordinates is read back from its 33 bytes.
* `PublicKey.length_compressed`: that encoding has 33 bytes.
-/

namespace WalletLedger.Crypto

namespace Secp256k1

/-- The order of the field. -/
def p : Nat := 0xfffffffffffffffffffffffffffffffffffffffffffffffffffffffefffffc2f

/-- The order of the group. -/
def n : Nat := 0xfffffffffffffffffffffffffffffffebaaedce6af48a03bbfd25e8cd0364141

/-- The difference of two residues below `p`. -/
def sub (a b : Nat) : Nat := (a + p - b) % p

/-- The residue of `base ^ e`, for an exponent below `2 ^ bits`, by repeated squaring. -/
def pow (base : Nat) : Nat → Nat → Nat
  | 0, _ => 1
  | bits + 1, e =>
    let half := pow base bits (e / 2)
    if e % 2 = 1 then half * half % p * base % p else half * half % p

theorem pow_lt (base bits e : Nat) : pow base bits e < p := by
  cases bits with
  | zero => exact (by decide : 1 < p)
  | succ bits =>
    unfold pow
    dsimp only
    split <;> exact Nat.mod_lt _ (by decide)

/-- The inverse of a residue, which is its power `p - 2`. -/
def inverse (a : Nat) : Nat := pow a 256 (p - 2)

/-- A square root of a residue if it has one, since `p` leaves three modulo four. -/
def root (a : Nat) : Nat := pow a 256 ((p + 1) / 4)

/-- A point in Jacobian coordinates, `(x / z ^ 2, y / z ^ 3)`; `z = 0` is infinity. -/
structure Jacobian where
  x : Nat
  y : Nat
  z : Nat

namespace Jacobian

/-- The neutral element. -/
def infinity : Jacobian := ⟨1, 1, 0⟩

/-- A point added to itself. -/
def double (q : Jacobian) : Jacobian :=
  let yy := q.y * q.y % p
  let s := 4 * q.x * yy % p
  let m := 3 * q.x * q.x % p
  let x := sub (m * m % p) (2 * s % p)
  ⟨x, sub (m * sub s x % p) (8 * yy * yy % p), 2 * q.y * q.z % p⟩

/-- The sum of two points. -/
def add (a b : Jacobian) : Jacobian :=
  if a.z = 0 then b
  else if b.z = 0 then a
  else
    let aa := a.z * a.z % p
    let bb := b.z * b.z % p
    let u := a.x * bb % p
    let v := b.x * aa % p
    let s := a.y * bb * b.z % p
    let t := b.y * aa * a.z % p
    if u = v then
      if s = t then a.double else infinity
    else
      let h := sub v u
      let r := sub t s
      let hh := h * h % p
      let hhh := h * hh % p
      let w := u * hh % p
      let x := sub (sub (r * r % p) hhh) (2 * w % p)
      ⟨x, sub (r * sub w x % p) (s * hhh % p), h * a.z * b.z % p⟩

/-- The multiple `k • q`, for `k` below `2 ^ bits`, by repeated doubling. -/
def multiple (q : Jacobian) : Nat → Nat → Jacobian
  | 0, _ => infinity
  | bits + 1, k =>
    let half := (multiple q bits (k / 2)).double
    if k % 2 = 1 then half.add q else half

/-- The affine coordinates of a point other than infinity. -/
def affine (q : Jacobian) : Nat × Nat :=
  let i := inverse q.z
  let ii := i * i % p
  (q.x * ii % p, q.y * ii * i % p)

/-- The point that generates the group. -/
def generator : Jacobian :=
  ⟨0x79be667ef9dcbbac55a06295ce870b07029bfcdb2dce28d959f2815b16f81798,
   0x483ada7726a3c4655da4fbfc0e1108a8fd17b448a68554199c47d08ffb10d4b8, 1⟩

end Jacobian

/-- Whether `(x, y)` are coordinates of a point: both reduced, and on the curve. -/
def IsPoint (x y : Nat) : Prop := x < p ∧ y < p ∧ y * y % p = (x * x * x + 7) % p

instance (x y : Nat) : Decidable (IsPoint x y) := inferInstanceAs (Decidable (_ ∧ _ ∧ _))

end Secp256k1

open Secp256k1

/-- A point of the curve other than infinity. -/
structure PublicKey where
  x : Nat
  y : Nat
  isPoint : IsPoint x y

namespace PublicKey

/-- The key with the coordinates `x` and `y`, if they are those of a point. -/
def ofCoordinates? (x y : Nat) : Option PublicKey :=
  if h : IsPoint x y then some ⟨x, y, h⟩ else none

/-- The key with the coordinate `x` whose `y` is odd or even, if there is one. -/
def ofX? (odd : Bool) (x : Nat) : Option PublicKey :=
  let y := root ((x * x * x + 7) % p)
  ofCoordinates? x (if (y % 2 == 1) = odd then y else p - y)

/-- The parity byte and `x`, 33 bytes. -/
def compressed (k : PublicKey) : Bytes :=
  (if k.y % 2 == 1 then 3 else 2) :: Bytes.ofNatBE 32 k.x

/-- Reads the 33 or the 65 bytes of a key. A first byte other than 2 or 3, or 4, is refused, and so
are coordinates that are not reduced or not on the curve. -/
def decode? (bs : Bytes) : Option PublicKey :=
  match bs with
  | [] => none
  | head :: tail =>
    if tail.length = 32 then
      if head = 2 then ofX? false (Bytes.toNatBE tail)
      else if head = 3 then ofX? true (Bytes.toNatBE tail)
      else none
    else if tail.length = 64 ∧ head = 4 then
      ofCoordinates? (Bytes.toNatBE (tail.take 32)) (Bytes.toNatBE (tail.drop 32))
    else none

/-- Reads a point, with `y` taken from its parity, so that every key obtained this way is also read
from its encoding. Infinity has no key. -/
def ofPoint? (q : Jacobian) : Option PublicKey :=
  if q.z = 0 then none
  else
    let (x, y) := q.affine
    ofX? (y % 2 == 1) x

/-- The key moved by `tweak` times the generator. A tweak of zero or not below the group's order is
refused, as is a move to infinity. -/
def tweak? (k : PublicKey) (tweak : Nat) : Option PublicKey :=
  if tweak = 0 ∨ n ≤ tweak then none
  else ofPoint? ((Jacobian.generator.multiple 256 tweak).add ⟨k.x, k.y, 1⟩)

theorem x_lt (k : PublicKey) : k.x < 1 <<< 256 :=
  Nat.lt_trans k.isPoint.1 (by decide)

@[simp] theorem length_compressed (k : PublicKey) : k.compressed.length = 33 := by
  simp [compressed]

theorem eq_of_ofCoordinates? {x y : Nat} {k : PublicKey} (h : ofCoordinates? x y = some k) :
    k.x = x ∧ k.y = y := by
  unfold ofCoordinates? at h
  split at h
  · cases h; exact ⟨rfl, rfl⟩
  · cases h

/-- Of a root and its negative, the one with the wanted parity is taken, since `p` is odd. -/
theorem parity_choose {odd : Bool} {r y : Nat} (hr : r < p) (hlt : y < p)
    (hy : y = if (r % 2 == 1) = odd then r else p - r) : (y % 2 == 1) = odd := by
  subst hy
  split at hlt
  · rename_i heq
    rw [if_pos heq]; exact heq
  · rename_i hne
    rw [if_neg hne]
    have hp : p % 2 = 1 := by decide
    have hflip : (p - r) % 2 = 1 - r % 2 := by omega
    rw [hflip]
    rcases Nat.mod_two_eq_zero_or_one r with h2 | h2 <;> cases odd <;> simp_all

/-- A key read from `x` and a parity has that coordinate and that parity. -/
theorem eq_of_ofX? {odd : Bool} {x : Nat} {k : PublicKey} (h : ofX? odd x = some k) :
    k.x = x ∧ (k.y % 2 == 1) = odd := by
  unfold ofX? at h
  obtain ⟨hx, hy⟩ := eq_of_ofCoordinates? h
  exact ⟨hx, parity_choose (pow_lt _ _ _) k.isPoint.2.1 hy⟩

/-- A key read from `x` and a parity is read from its 33 bytes as well. -/
theorem decode?_compressed_of_ofX? {odd : Bool} {x : Nat} {k : PublicKey}
    (h : ofX? odd x = some k) : decode? k.compressed = some k := by
  obtain ⟨hx, hodd⟩ := eq_of_ofX? h
  have hread : Bytes.toNatBE (Bytes.ofNatBE 32 k.x) = x := by
    rw [Bytes.toNatBE_ofNatBE 32 k.x k.x_lt, hx]
  unfold compressed decode?
  rw [hodd]
  cases odd <;> simp [hread, h]

/-- The key of a point is read from its 33 bytes. -/
theorem decode?_ofPoint? {q : Jacobian} {k : PublicKey} (h : ofPoint? q = some k) :
    decode? k.compressed = some k := by
  unfold ofPoint? at h
  split at h
  · cases h
  · exact decode?_compressed_of_ofX? h

end PublicKey

end WalletLedger.Crypto
