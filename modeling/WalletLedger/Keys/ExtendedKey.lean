import WalletLedger.Keys.Base58
import WalletLedger.Crypto.Sha512
import WalletLedger.Network
import WalletLedger.Refusal
import WalletLedger.Script

/-!
# Extended public keys

An extended key derives a child key for each number below `2 ^ 31` without knowing any secret. An
address is the child of a child: its type, then its index.

* `ExtendedKey.depth_child`: a child lies one step deeper.
* `ExtendedKey.decode?_of_child`: the key of a child is read from its encoding.
* `ExtendedKey.scripts_derive`: the two scripts of an address pay the same key.
-/

namespace WalletLedger

open Crypto

/-- Why an extended key cannot be read or derived from. -/
inductive DerivationError where
  /-- The text has a character that is no digit, is too short, or fails its checksum. -/
  | checkedText
  /-- The text does not hold 78 bytes. -/
  | payload
  /-- The first four bytes name no network. -/
  | unknownVersion (version : Bytes)
  /-- The bytes are no public key, or the derivation leaves the curve's group. -/
  | publicKey
  /-- A child number that only secret keys can derive. -/
  | childNumber (number : Nat)
  /-- The child would lie more than 255 steps deep. -/
  | depth
  deriving DecidableEq

/-- The wording of a derivation error. -/
def DerivationError.message : DerivationError → String
  | .checkedText => "base58 encoding error"
  | .payload => "base58 payload"
  | .unknownVersion version =>
    "unknown version magic bytes: [" ++ ", ".intercalate (version.map fun b => b.toNat.repr) ++ "]"
  | .publicKey => "secp256k1 error"
  | .childNumber number =>
    "child number " ++ number.repr ++ " is invalid (not within [0, 2^31 - 1])"
  | .depth => "cannot derive child of depth 256 or higher"

/-- A public key from which further keys are derived. -/
structure ExtendedKey where
  network : NetworkKind
  depth : UInt8
  chainCode : Bytes
  key : PublicKey

/-- The scripts that pay a derived key. -/
structure DerivedScripts where
  /-- Pays to the key. -/
  toKey : Script
  /-- Pays to the hash of the key; deposits are matched on it. -/
  toKeyHash : Script
  deriving DecidableEq

namespace ExtendedKey

/-- The network kind that four version bytes name. -/
def kindOfVersion? (version : Bytes) : Option NetworkKind :=
  if version = [0x04, 0x88, 0xb2, 0x1e] then some .main
  else if version = [0x04, 0x35, 0x87, 0xcf] then some .test
  else none

/-- Reads the 78 bytes: version (4), depth (1), parent (4), number (4), chain code (32) and key
(33). -/
def decode (payload : Bytes) : Except DerivationError ExtendedKey :=
  if payload.length = 78 then
    match kindOfVersion? (payload.take 4) with
    | none => .error (.unknownVersion (payload.take 4))
    | some network =>
      match PublicKey.decode? (payload.drop 45) with
      | none => .error .publicKey
      | some key => .ok ⟨network, payload.getD 4 0, (payload.drop 13).take 32, key⟩
  else .error .payload

/-- Reads the text of an extended key. -/
def ofText (text : String) : Except DerivationError ExtendedKey :=
  match Base58.decodeChecked? text with
  | none => .error .checkedText
  | some payload => decode payload

/-- The child with a number. The keyed digest of the key and the number moves the key by its first
half; its second half is the chain code of the child. -/
def child (k : ExtendedKey) (number : Nat) : Except DerivationError ExtendedKey :=
  let mac := Sha512.hmac k.chainCode (k.key.compressed ++ Bytes.ofNatBE 4 number)
  match k.key.tweak? (Bytes.toNatBE (mac.take 32)) with
  | none => .error .publicKey
  | some key =>
    if k.depth = 255 then .error .depth
    else .ok ⟨k.network, k.depth + 1, mac.drop 32, key⟩

/-- Public derivation admits the child numbers below this one. -/
def numberLimit : Nat := 0x80000000

/-- Accepts a number that public derivation admits. -/
def checkNumber (number : Nat) : Except DerivationError Unit :=
  if number < numberLimit then .ok () else .error (.childNumber number)

/-- The scripts that pay a key. -/
def scripts (k : ExtendedKey) : DerivedScripts :=
  ⟨Script.payToKey k.key.compressed, Script.payToKeyHash k.key.compressed⟩

/-- The scripts at an address type and index. Both numbers are checked before anything is derived,
the type first. -/
def derive (k : ExtendedKey) (kind index : Nat) : Except DerivationError DerivedScripts := do
  checkNumber kind
  checkNumber index
  let pool ← k.child kind
  let address ← pool.child index
  return address.scripts

theorem decode?_of_child {k c : ExtendedKey} {number : Nat} (h : k.child number = .ok c) :
    PublicKey.decode? c.key.compressed = some c.key := by
  unfold child at h
  dsimp only at h
  split at h
  · cases h
  · rename_i key hkey
    split at h
    · cases h
    · cases h
      unfold PublicKey.tweak? at hkey
      split at hkey
      · cases hkey
      · exact PublicKey.decode?_ofPoint? hkey

theorem depth_child {k c : ExtendedKey} {number : Nat} (h : k.child number = .ok c) :
    c.depth = k.depth + 1 := by
  unfold child at h
  dsimp only at h
  split at h
  · cases h
  · split at h
    · cases h
    · cases h; rfl

theorem checkNumber_eq_ok_iff {number : Nat} :
    checkNumber number = .ok () ↔ number < numberLimit := by
  unfold checkNumber
  split
  · rename_i h
    exact ⟨fun _ => h, fun _ => rfl⟩
  · rename_i h
    exact ⟨(nomatch ·), fun hlt => absurd hlt h⟩

/-- Derived scripts are those of a key that is read from its encoding, at admitted numbers. -/
theorem scripts_derive {k : ExtendedKey} {kind index : Nat} {d : DerivedScripts}
    (h : k.derive kind index = .ok d) :
    kind < numberLimit ∧ index < numberLimit ∧ ∃ c : ExtendedKey,
      PublicKey.decode? c.key.compressed = some c.key ∧ d = c.scripts := by
  obtain ⟨_, hkind, h⟩ := bind_eq_ok_iff.1 h
  obtain ⟨_, hindex, h⟩ := bind_eq_ok_iff.1 h
  obtain ⟨pool, -, h⟩ := bind_eq_ok_iff.1 h
  obtain ⟨address, haddress, h⟩ := bind_eq_ok_iff.1 h
  cases h
  exact ⟨checkNumber_eq_ok_iff.1 hkind, checkNumber_eq_ok_iff.1 hindex, address,
    decode?_of_child haddress, rfl⟩

end ExtendedKey

end WalletLedger
