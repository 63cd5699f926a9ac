/-!
# Byte strings

Scripts, hashes and stored columns are lists of bytes.

* `length_ofNatLE`, `length_ofNatBE`: a number of `n` bytes has length `n`.
* `toNatBE_ofNatBE`, `ofNatBE_toNatBE`: big-endian writing is read back, and bytes are written again.
* `ofHex?_toHex`: hexadecimal writing is read back.
* `length_chunks`, `flatten_chunks`: cutting into equal parts loses nothing.
-/

namespace WalletLedger

/-- A string of bytes. -/
abbrev Bytes := List UInt8

namespace Bytes

/-! ## Numbers -/

/-- The `n` low-order bytes of `v`, least significant first. -/
def ofNatLE : Nat → Nat → Bytes
  | 0, _ => []
  | n + 1, v => UInt8.ofNat v :: ofNatLE n (v / 256)

/-- The `n` low-order bytes of `v`, most significant first. -/
def ofNatBE (n v : Nat) : Bytes := (ofNatLE n v).reverse

/-- The number written by `bs`, most significant byte first. -/
def toNatBE (bs : Bytes) : Nat := bs.foldl (fun acc b => 256 * acc + b.toNat) 0

@[simp] theorem length_ofNatLE (n v : Nat) : (ofNatLE n v).length = n := by
  induction n generalizing v with
  | zero => rfl
  | succ n ih => simp [ofNatLE, ih]

@[simp] theorem length_ofNatBE (n v : Nat) : (ofNatBE n v).length = n := by simp [ofNatBE]

theorem toNatBE_append_singleton (bs : Bytes) (b : UInt8) :
    toNatBE (bs ++ [b]) = 256 * toNatBE bs + b.toNat := by simp [toNatBE]

/-- A number of `8 * n` bits is read back from its `n` bytes. -/
theorem toNatBE_ofNatBE (n v : Nat) (hv : v < 1 <<< (8 * n)) : toNatBE (ofNatBE n v) = v := by
  induction n generalizing v with
  | zero => simp [ofNatBE, ofNatLE, toNatBE] at hv ⊢; omega
  | succ n ih =>
    have hq : v / 256 < 1 <<< (8 * n) := by
      rw [Nat.mul_succ, Nat.shiftLeft_add, Nat.shiftLeft_eq _ 8] at hv
      omega
    have := ih _ hq
    simp only [ofNatBE] at this
    simp only [ofNatBE, ofNatLE, List.reverse_cons, toNatBE_append_singleton, this]
    simp [UInt8.toNat_ofNat']
    omega

theorem ofNatLE_toNatBE (bs : Bytes) : ofNatLE bs.length (toNatBE bs.reverse) = bs := by
  induction bs with
  | nil => rfl
  | cons b bs ih =>
    have hb := b.toNat_lt
    have hhigh : (256 * toNatBE bs.reverse + b.toNat) / 256 = toNatBE bs.reverse := by omega
    have hlow : UInt8.ofNat (256 * toNatBE bs.reverse + b.toNat) = b := by
      apply UInt8.toNat_inj.1
      rw [UInt8.toNat_ofNat']
      omega
    rw [List.reverse_cons, toNatBE_append_singleton, List.length_cons, ofNatLE, hhigh, hlow, ih]

/-- Bytes are written again from the number that they write. -/
theorem ofNatBE_toNatBE {n : Nat} {bs : Bytes} (hlength : bs.length = n) :
    ofNatBE n (toNatBE bs) = bs := by
  subst hlength
  have h := ofNatLE_toNatBE bs.reverse
  rw [List.reverse_reverse, List.length_reverse] at h
  rw [ofNatBE, h, List.reverse_reverse]

/-! ## Equal parts -/

/-- The first `k` parts of `size` bytes each. -/
def chunks (size : Nat) : Nat → Bytes → List Bytes
  | 0, _ => []
  | k + 1, bs => bs.take size :: chunks size k (bs.drop size)

@[simp] theorem length_chunks (size k : Nat) (bs : Bytes) : (chunks size k bs).length = k := by
  induction k generalizing bs with
  | zero => rfl
  | succ k ih => simp [chunks, ih]

/-- Parts that cover the whole string join to it. -/
theorem flatten_chunks (size k : Nat) (bs : Bytes) (h : bs.length = size * k) :
    (chunks size k bs).flatten = bs := by
  induction k generalizing bs with
  | zero => simpa [chunks, eq_comm] using h
  | succ k ih =>
    have hd : (bs.drop size).length = size * k := by
      rw [List.length_drop, h, Nat.mul_succ, Nat.add_sub_cancel]
    simp [chunks, ih _ hd]

theorem length_of_mem_chunks {size k : Nat} {bs part : Bytes} (h : bs.length = size * k)
    (hp : part ∈ chunks size k bs) : part.length = size := by
  induction k generalizing bs with
  | zero => simp [chunks] at hp
  | succ k ih =>
    have hd : (bs.drop size).length = size * k := by
      rw [List.length_drop, h, Nat.mul_succ, Nat.add_sub_cancel]
    rcases List.mem_cons.1 hp with hp | hp
    · rw [hp, List.length_take, h, Nat.mul_succ]; omega
    · exact ih hd hp

/-! ## Hexadecimal text -/

/-- The lower-case digit of a value below sixteen. -/
def hexDigit (v : Nat) : Char := if v < 10 then Char.ofNat (48 + v) else Char.ofNat (87 + v)

/-- The value of a digit; both cases are read. -/
def hexValue? (c : Char) : Option Nat :=
  if '0' ≤ c ∧ c ≤ '9' then some (c.toNat - 48)
  else if 'a' ≤ c ∧ c ≤ 'f' then some (c.toNat - 87)
  else if 'A' ≤ c ∧ c ≤ 'F' then some (c.toNat - 55)
  else none

/-- Two digits a byte, the high half first. -/
def hexDigits (bs : Bytes) : List Char :=
  bs.flatMap fun b => [hexDigit (b.toNat / 16), hexDigit (b.toNat % 16)]

/-- The text of `hexDigits`. -/
def toHex (bs : Bytes) : String := String.ofList bs.hexDigits

/-- Reads pairs of digits; an odd digit or another character is refused. -/
def ofHexDigits? : List Char → Option Bytes
  | [] => some []
  | [_] => none
  | hi :: lo :: rest => do
    let h ← hexValue? hi
    let l ← hexValue? lo
    let bs ← ofHexDigits? rest
    return UInt8.ofNat (16 * h + l) :: bs

/-- Reads a hexadecimal text. -/
def ofHex? (text : String) : Option Bytes := ofHexDigits? text.toList

theorem hexValue?_hexDigit (v : Fin 16) : hexValue? (hexDigit v) = some v.val := by
  revert v; decide

theorem ofHexDigits?_hexDigits (bs : Bytes) : ofHexDigits? bs.hexDigits = some bs := by
  induction bs with
  | nil => rfl
  | cons b bs ih =>
    have hb := b.toNat_lt
    have h1 := hexValue?_hexDigit ⟨b.toNat / 16, by omega⟩
    have h2 := hexValue?_hexDigit ⟨b.toNat % 16, by omega⟩
    have hsum : 16 * (b.toNat / 16) + b.toNat % 16 = b.toNat := by omega
    simp only [hexDigits] at h1 h2 ih
    simp only [hexDigits, List.flatMap_cons, List.cons_append, List.nil_append, ofHexDigits?]
    rw [h1, h2, ih]
    change some (UInt8.ofNat (16 * (b.toNat / 16) + b.toNat % 16) :: bs) = some (b :: bs)
    rw [hsum, UInt8.ofNat_toNat]

/-- A written string is read back. -/
theorem ofHex?_toHex (bs : Bytes) : ofHex? bs.toHex = some bs := by
  simp [ofHex?, toHex, ofHexDigits?_hexDigits]

end Bytes

end WalletLedger
