import WalletLedger.Crypto.Ripemd160
import WalletLedger.Crypto.Secp256k1

/-!
# Scripts

A script is its bytes. Two forms pay a public key: to the key itself, and to the hash of its
encoding. A wallet looks for the second, so `Script.normal` brings the first into it.

* `Script.pushedKey?_payToKey`: the key of a payment to a key is found.
* `Script.pushedKey?_payToKeyHash`: a payment to a key hash holds no key.
* `Script.normal_normal`: a normal form is its own.
-/

namespace WalletLedger

open Crypto

/-- The bytes of an output script. -/
abbrev Script := Bytes

namespace Script

/-- Pays to a key: pushes its encoding and checks a signature. -/
def payToKey (encoding : Bytes) : Script := UInt8.ofNat encoding.length :: (encoding ++ [0xac])

/-- Pays to the hash of a key's encoding. -/
def payToKeyHash (encoding : Bytes) : Script :=
  [0x76, 0xa9, 0x14] ++ hash160 encoding ++ [0x88, 0xac]

/-- The encoding in a script that pays to a key: one push of a valid key of 33 or 65 bytes, followed
by a signature check. -/
def pushedKey? : Script → Option Bytes
  | [] => none
  | push :: rest =>
    let encoding := rest.dropLast
    if (push = 33 ∨ push = 65) ∧ encoding.length = push.toNat ∧ rest.getLast? = some 0xac then
      if (PublicKey.decode? encoding).isSome then some encoding else none
    else none

/-- The script that addresses are matched on: a payment to a key is taken for one to its hash. -/
def normal (s : Script) : Script :=
  match s.pushedKey? with
  | some encoding => payToKeyHash encoding
  | none => s

theorem pushedKey?_payToKey {encoding : Bytes} (hlen : encoding.length = 33 ∨ encoding.length = 65)
    (hkey : (PublicKey.decode? encoding).isSome) :
    pushedKey? (payToKey encoding) = some encoding := by
  unfold payToKey pushedKey?
  have hdrop : (encoding ++ [0xac]).dropLast = encoding := by simp
  rcases hlen with h | h <;> simp [h, hdrop, hkey]

theorem pushedKey?_payToKeyHash (encoding : Bytes) : pushedKey? (payToKeyHash encoding) = none := by
  simp [payToKeyHash, pushedKey?]

theorem normal_payToKeyHash (encoding : Bytes) :
    normal (payToKeyHash encoding) = payToKeyHash encoding := by
  simp [normal, pushedKey?_payToKeyHash]

/-- A normal form is its own. -/
theorem normal_normal (s : Script) : s.normal.normal = s.normal := by
  cases h : s.pushedKey? with
  | none => simp [normal, h]
  | some encoding =>
    have hs : s.normal = payToKeyHash encoding := by simp [normal, h]
    rw [hs, normal_payToKeyHash]

end Script

end WalletLedger
