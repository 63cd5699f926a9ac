import WalletLedger.Crypto.Sha256

/-!
# Hashes of blocks and transactions

A `Hash256` is the 32 bytes of a double hash. It is displayed with the bytes in reverse, and ordered
by the bytes as they are stored.

* `Hash256.ofBytes?_bytes`: stored bytes are read back.
* `Hash256.ofBytes?_eq_none_iff`: only strings of another length are refused.
-/

namespace WalletLedger

open Crypto

/-- Thirty-two bytes that name a block or a transaction. -/
@[ext] structure Hash256 where
  bytes : Bytes
  length_bytes : bytes.length = 32
  deriving DecidableEq

namespace Hash256

/-- The hash stored as `bs`, if that has the right length. -/
def ofBytes? (bs : Bytes) : Option Hash256 :=
  if h : bs.length = 32 then some ⟨bs, h⟩ else none

/-- The double hash of a message. -/
def digest (message : Bytes) : Hash256 := ⟨sha256d message, length_sha256d message⟩

/-- All zeros: the parent of the first block, and no transaction. -/
def zero : Hash256 := ⟨List.replicate 32 0, List.length_replicate⟩

/-- Hexadecimal digits, the last stored byte first. -/
def display (h : Hash256) : String := Bytes.toHex h.bytes.reverse

/-- Reads the displayed form. -/
def ofDisplay? (text : String) : Option Hash256 := do
  let bs ← Bytes.ofHex? text
  ofBytes? bs.reverse

@[simp] theorem ofBytes?_bytes (h : Hash256) : ofBytes? h.bytes = some h := by
  simp [ofBytes?, h.length_bytes]

theorem ofBytes?_eq_some_iff {bs : Bytes} {h : Hash256} : ofBytes? bs = some h ↔ bs = h.bytes := by
  constructor
  · intro e
    unfold ofBytes? at e
    split at e
    · cases e; rfl
    · cases e
  · rintro rfl
    exact ofBytes?_bytes h

theorem ofBytes?_eq_none_iff {bs : Bytes} : ofBytes? bs = none ↔ bs.length ≠ 32 := by
  unfold ofBytes?
  split <;> simp [*]

/-- The displayed form is read back. -/
theorem ofDisplay?_display (h : Hash256) : ofDisplay? h.display = some h := by
  simp [ofDisplay?, display, Bytes.ofHex?_toHex]

end Hash256

end WalletLedger
