import WalletLedger.Proofs.KeyEncodings
import WalletLedger.Proofs.Scanning

/-!
# Payments to a key and to its hash

An address is paid in two forms, to its key and to the hash of its key, and outputs of both forms are
staged under the second. A script counts as a payment to a key if it pushes an encoding of a key, by the
opcode that is its length, and checks a signature. Every other script is staged as it is: one with a
longer form of the push, with the first byte of a mixed encoding, or with coordinates of no point.

* `Script.pushedKey?_eq_some_iff`: the scripts in which a key is found.
* `Script.normal_payToKey`, `Script.normal_of_forall_ne`: what each script is matched on.
* `Account.normal_toKey`, `Account.normal_toKeyHash`: both forms of an address have its normal form.
* `Batch.both_forms_staged`: the outputs of a transaction, staged.
-/

namespace WalletLedger

open Crypto

namespace Script

variable {s : Script} {encoding : Bytes}

/-- What is found in a script is read as a key, and the script pays to it. -/
theorem eq_payToKey_of_pushedKey? (h : s.pushedKey? = some encoding) :
    s = payToKey encoding ∧ ∃ key, PublicKey.decode? encoding = some key := by
  unfold pushedKey? at h
  split at h
  · cases h
  · rename_i push rest
    dsimp only at h
    split at h
    · rename_i hform
      obtain ⟨-, hlength, hlast⟩ := hform
      split at h
      · rename_i hkey
        cases h
        refine ⟨?_, Option.isSome_iff_exists.1 hkey⟩
        rw [payToKey, hlength, UInt8.ofNat_toNat, List.dropLast_append_getLast? _ hlast]
      · cases h
    · cases h

/-- **A key is found in the scripts that pay to it**, in either encoding, and in no others. -/
theorem pushedKey?_eq_some_iff :
    s.pushedKey? = some encoding ↔
      s = payToKey encoding ∧ ∃ (key : PublicKey) (form : KeyForm), encoding = key.encode form := by
  constructor
  · intro h
    obtain ⟨hs, key, hkey⟩ := eq_payToKey_of_pushedKey? h
    obtain ⟨form, hencode⟩ := PublicKey.eq_encode_of_decode? hkey
    exact ⟨hs, key, form, hencode⟩
  · rintro ⟨rfl, key, form, rfl⟩
    refine pushedKey?_payToKey (key.length_encode form) ?_
    rw [key.decode?_encode form]
    rfl

/-- A payment to a key is matched on the payment to its hash. -/
theorem normal_payToKey (key : PublicKey) (form : KeyForm) :
    normal (payToKey (key.encode form)) = payToKeyHash (key.encode form) := by
  have hpushed : pushedKey? (payToKey (key.encode form)) = some (key.encode form) :=
    pushedKey?_eq_some_iff.2 ⟨rfl, key, form, rfl⟩
  rw [normal, hpushed]

/-- A script that is no payment to a key is matched as it is. -/
theorem normal_of_forall_ne (h : ∀ (key : PublicKey) (form : KeyForm), s ≠ payToKey (key.encode form)) :
    s.normal = s := by
  rw [normal_eq_self_iff, Option.eq_none_iff_forall_ne_some]
  intro encoding hpushed
  obtain ⟨hs, key, form, rfl⟩ := pushedKey?_eq_some_iff.1 hpushed
  exact h key form hs

end Script

namespace Account

variable {account : Account} {kind index : UInt32} {scripts : DerivedScripts}

/-- An address's payment to its key is matched on the payment to its hash. -/
theorem normal_toKey (h : account.derive kind index = .ok scripts) :
    scripts.toKey.normal = scripts.toKeyHash := by
  obtain ⟨-, -, child, rfl⟩ := account.scripts_derive h
  exact Script.normal_payToKey child.key .compressed

/-- An address's payment to the hash of its key is matched as it is. -/
theorem normal_toKeyHash (h : account.derive kind index = .ok scripts) :
    scripts.toKeyHash.normal = scripts.toKeyHash := by
  obtain ⟨-, -, child, rfl⟩ := account.scripts_derive h
  exact Script.normal_payToKeyHash _

end Account

namespace Batch

/-- Every output is staged, at its place and with its own script. -/
theorem redeems_ofTransaction (tx : Transaction) (time : UInt32) (block : Option BlockRef) :
    (ofTransaction tx time block).outputs.map (·.redeem) = tx.outputs.map (·.script) := by
  simp only [ofTransaction, List.map_map]
  conv_rhs => rw [← List.zipIdx_map_fst 0 tx.outputs, List.map_map]
  rfl

end Batch

namespace Batch

open Script

/-- **Both payment forms of an address are staged onto it.** Every output of a transaction is staged with
its own script. It is matched on the payment to the hash of a key if it pays to the key, in either
encoding, and on its own script otherwise; so an output that pays the key of an address, and one that
pays its hash, are both matched on what the address is known by. What an output is matched on is matched
as it is. -/
theorem both_forms_staged (tx : Transaction) (time : UInt32) (block : Option BlockRef) :
    (ofTransaction tx time block).outputs.map (·.redeem) = tx.outputs.map (·.script) ∧
    ∀ o ∈ (ofTransaction tx time block).outputs,
      (∀ (account : Account) (kind index : UInt32) (scripts : DerivedScripts),
        account.derive kind index = .ok scripts →
          o.redeem = scripts.toKey ∨ o.redeem = scripts.toKeyHash → o.script = scripts.toKeyHash) ∧
      (∀ (key : PublicKey) (form : KeyForm), o.redeem = payToKey (key.encode form) →
        o.script = payToKeyHash (key.encode form)) ∧
      ((∀ (key : PublicKey) (form : KeyForm), o.redeem ≠ payToKey (key.encode form)) →
        o.script = o.redeem) ∧
      o.script = o.redeem.normal ∧ o.script.normal = o.script := by
  refine ⟨redeems_ofTransaction tx time block, fun o ho => ?_⟩
  have hscript : o.script = o.redeem.normal := script_of_mem_ofTransaction ho
  refine ⟨fun account kind index scripts hderive hpays => ?_, fun key form hpays => ?_,
    fun hother => ?_, hscript, ?_⟩
  · rcases hpays with hkey | hhash
    · rw [hscript, hkey, Account.normal_toKey hderive]
    · rw [hscript, hhash, Account.normal_toKeyHash hderive]
  · rw [hscript, hpays, normal_payToKey]
  · rw [hscript, normal_of_forall_ne hother]
  · rw [hscript, normal_normal]

end Batch

namespace Sample

/-- The key whose secret is one. -/
def unitKey : PublicKey :=
  ⟨Secp256k1.Jacobian.generator.x, Secp256k1.Jacobian.generator.y, by decide +kernel⟩

/-- The 65 bytes of a key with a first byte that tells the parity of `y` as well. -/
def mixedEncoding : Bytes := 6 :: (unitKey.encode .uncompressed).tail

/-- A transaction that pays an address in both forms, a key by its 65 bytes, and no key at all. -/
def payForms : Transaction where
  version := 1
  inputs := [⟨⟨Hash256.zero, 0⟩, [], 0⟩]
  outputs := [⟨5000, receiving.toKey⟩, ⟨4000, receiving.toKeyHash⟩,
    ⟨3000, Script.payToKey (unitKey.encode .uncompressed)⟩, ⟨2000, Script.payToKey mixedEncoding⟩]
  lockTime := 0

theorem derive_receiving : account.derive 0 0 = .ok receiving := by
  obtain ⟨past, hist, -⟩ := history unbuffered
  have hreach : (opened unbuffered).Reachable := ⟨_, past, hist⟩
  obtain ⟨owner, howner, -, -, hderive⟩ :=
    hreach.wellFormed.address_owner ⟨⟨⟨1, 0, 0⟩, 0⟩, receiving⟩ List.mem_cons_self
  rw [List.mem_singleton.1 howner] at hderive
  exact hderive

theorem mixedEncoding_ne (key : PublicKey) (form : KeyForm) :
    Script.payToKey mixedEncoding ≠ Script.payToKey (key.encode form) := by
  intro heq
  have hnone : (Script.payToKey mixedEncoding).pushedKey? = none := by decide +kernel
  rw [heq, Script.pushedKey?_eq_some_iff.2 ⟨rfl, key, form, rfl⟩] at hnone
  cases hnone

end Sample

namespace Batch

open Script

/-- Both forms of an address, a key by its 65 bytes, and a mixed encoding, which is matched as it is. -/
theorem both_forms_staged_four : Sample.account.derive 0 0 = .ok Sample.receiving ∧
    (∃ o ∈ (ofTransaction Sample.payForms 7 none).outputs,
      o.redeem = Sample.receiving.toKey ∧ o.script = Sample.receiving.toKeyHash) ∧
    (∃ o ∈ (ofTransaction Sample.payForms 7 none).outputs,
      o.redeem = Sample.receiving.toKeyHash ∧ o.script = Sample.receiving.toKeyHash) ∧
    (∃ o ∈ (ofTransaction Sample.payForms 7 none).outputs,
      o.redeem = payToKey (Sample.unitKey.encode .uncompressed) ∧
        o.script = payToKeyHash (Sample.unitKey.encode .uncompressed)) ∧
    ∃ o ∈ (ofTransaction Sample.payForms 7 none).outputs,
      o.redeem = payToKey Sample.mixedEncoding ∧ o.script = payToKey Sample.mixedEncoding := by
  obtain ⟨hredeems, hstaged⟩ := both_forms_staged Sample.payForms 7 none
  have hfind : ∀ s ∈ Sample.payForms.outputs.map (·.script),
      ∃ o ∈ (ofTransaction Sample.payForms 7 none).outputs, o.redeem = s := by
    intro s hs
    rw [← hredeems] at hs
    exact List.mem_map.1 hs
  refine ⟨Sample.derive_receiving, ?_, ?_, ?_, ?_⟩
  · obtain ⟨o, ho, hredeem⟩ := hfind Sample.receiving.toKey (by simp [Sample.payForms])
    obtain ⟨haddress, -⟩ := hstaged o ho
    exact ⟨o, ho, hredeem, haddress _ 0 0 _ Sample.derive_receiving (.inl hredeem)⟩
  · obtain ⟨o, ho, hredeem⟩ := hfind Sample.receiving.toKeyHash (by simp [Sample.payForms])
    obtain ⟨haddress, -⟩ := hstaged o ho
    exact ⟨o, ho, hredeem, haddress _ 0 0 _ Sample.derive_receiving (.inr hredeem)⟩
  · obtain ⟨o, ho, hredeem⟩ := hfind (payToKey (Sample.unitKey.encode .uncompressed))
      (by simp [Sample.payForms])
    obtain ⟨-, hkey, -⟩ := hstaged o ho
    exact ⟨o, ho, hredeem, hkey _ _ hredeem⟩
  · obtain ⟨o, ho, hredeem⟩ := hfind (payToKey Sample.mixedEncoding) (by simp [Sample.payForms])
    obtain ⟨-, -, hother, -⟩ := hstaged o ho
    have hscript : o.script = o.redeem := hother fun key form heq =>
      Sample.mixedEncoding_ne key form (hredeem ▸ heq)
    exact ⟨o, ho, hredeem, hscript.trans hredeem⟩

end Batch

end WalletLedger
