import Mathlib.Data.List.Perm.Basic
import WalletLedger.Proofs.Deposits
import WalletLedger.Proofs.Rewind

/-!
# What an account holds

The entries of an account, its spendable outputs and its balance are three queries of one ledger. The
first reads whole rows, the second tests columns and compares depths below the current height, which are
negative for what lies above it, and the third adds up amounts as signed words.

* `LedgerEntry.heldBy`: the unspent entries of an account.
* `signedSum?_wraps`, `exists_signedSum?`: a sum of signed words is right up to wrapping, and there is one
  if the amounts are small enough.
* `Store.Holds`: the spendable outputs and the balance are those of some entries.
* `Indexer.funds_agree`: in every reachable state they are those of the unspent entries.
-/

namespace WalletLedger

/-- The entries of an account that are not spent. -/
def LedgerEntry.heldBy (wallet : Int) (account : UInt32) (es : List LedgerEntry) : List LedgerEntry :=
  es.filter fun e =>
    e.address.group.wallet == wallet && e.address.group.account == account && !e.isSpent

/-- The sum of some amounts, which may exceed a word. -/
def amountSum (values : List UInt64) : Nat := values.foldr (fun v sum => v.toNat + sum) 0

/-- The sum of the values of entries. -/
def LedgerEntry.total (es : List LedgerEntry) : Nat := amountSum (es.map (·.value))

/-- What can be spent of an account, and its balance, are those of the entries that it holds. -/
structure Store.Holds (s : Store) (wallet : Int) (account : UInt32) (held : List LedgerEntry) : Prop where
  nodup : held.Nodup
  /-- The held entries that are mature can be spent, each once. -/
  spendable : ∀ current maturity confirmations, ∃ out,
    s.spendableOutputs wallet account current maturity confirmations = .ok out ∧ out.Nodup ∧
      ∀ e, e ∈ out ↔ e ∈ held ∧ e.isMature current maturity confirmations = true
  /-- No less can be spent later, or with a lower bar. -/
  grows : ∀ current later maturity maturity' confirmations confirmations' out out',
    current ≤ later → maturity' ≤ maturity → confirmations' ≤ confirmations →
    s.spendableOutputs wallet account current maturity confirmations = .ok out →
    s.spendableOutputs wallet account later maturity' confirmations' = .ok out' → out ⊆ out'
  /-- Without a bar all can be spent, once the height of every deposit is reached. -/
  all : ∀ current, (∀ e ∈ held, ∀ block ∈ e.block, block.height ≤ current) →
    ∃ out, s.spendableOutputs wallet account current 0 0 = .ok out ∧ out.Perm held
  /-- Sums below `2 ^ 63` are the balance. -/
  balanced : LedgerEntry.total (held.filter (·.isConfirmed)) < 9223372036854775808 →
    LedgerEntry.total (held.filter fun e => !e.isConfirmed) < 9223372036854775808 →
    ∃ b, s.balance wallet account = .ok b ∧
      b.confirmed.toNat = LedgerEntry.total (held.filter (·.isConfirmed)) ∧
      b.unconfirmed.toNat = LedgerEntry.total (held.filter fun e => !e.isConfirmed) ∧
      b.utxoCount = held.length
  /-- A balance is the sums modulo `2 ^ 64`. -/
  wrapped : ∀ b, s.balance wallet account = .ok b →
    b.confirmed.toNat = LedgerEntry.total (held.filter (·.isConfirmed)) % 18446744073709551616 ∧
    b.unconfirmed.toNat =
      LedgerEntry.total (held.filter fun e => !e.isConfirmed) % 18446744073709551616 ∧
    b.utxoCount = held.length

/-! ## Sums of signed words -/

theorem amountSum_cons (v : UInt64) (values : List UInt64) :
    amountSum (v :: values) = v.toNat + amountSum values := rfl

theorem amountSum_of_perm {values values' : List UInt64} (h : values.Perm values') :
    amountSum values = amountSum values' := by
  have hcomm : LeftCommutative fun (v : UInt64) (sum : Nat) => v.toNat + sum :=
    ⟨fun v v' sum => Nat.add_left_comm v.toNat v'.toNat sum⟩
  exact h.foldr_eq 0

theorem eq_add_of_addSigned? {a b c : Int64} (h : addSigned? a b = some c) : c = a + b := by
  unfold addSigned? at h
  split at h
  · exact (Option.some.inj h).symm
  · cases h

/-- An amount below `2 ^ 63` is itself as a signed word. -/
theorem toInt_toInt64 {v : UInt64} (h : v.toNat < 9223372036854775808) :
    v.toInt64.toInt = v.toNat := by
  have hword : v.toInt64 = Int64.ofNat v.toNat := by
    rw [← UInt64.toInt64_ofNat', UInt64.ofNat_toNat]
  rw [hword, Int64.toInt_ofNat_of_lt h]

/-- Adding to a signed word wraps at most. -/
theorem toNat_of_foldlM_addSigned? {values : List UInt64} : ∀ {start sum : Int64},
    values.foldlM (fun sum v => addSigned? sum v.toInt64) start = some sum →
    sum.toUInt64.toNat = (start.toUInt64.toNat + amountSum values) % 18446744073709551616 := by
  induction values with
  | nil =>
    intro start sum h
    cases h
    exact (Nat.mod_eq_of_lt start.toUInt64.toNat_lt).symm
  | cons v values ih =>
    intro start sum h
    obtain ⟨next, hnext, h⟩ := Option.bind_eq_some_iff.1 (List.foldlM_cons.symm.trans h)
    rw [ih h, eq_add_of_addSigned? hnext, Int64.toUInt64_add, UInt64.toUInt64_toInt64,
      UInt64.toNat_add, amountSum_cons]
    omega

/-- As long as the sum stays in range, so does every sum on the way. -/
theorem exists_foldlM_addSigned? {values : List UInt64} : ∀ {start : Int64} {n : Nat},
    start.toInt = n → n + amountSum values < 9223372036854775808 →
    ∃ sum, values.foldlM (fun sum v => addSigned? sum v.toInt64) start = some sum := by
  induction values with
  | nil => exact fun {start} _ _ _ => ⟨start, rfl⟩
  | cons v values ih =>
    intro start n hstart hrange
    rw [amountSum_cons] at hrange
    have hvalue : v.toInt64.toInt = v.toNat := toInt_toInt64 (by omega)
    have hsum : (start + v.toInt64).toInt = start.toInt + v.toInt64.toInt := by
      rw [Int64.toInt_add]
      exact Int.bmod_eq_of_le (by omega) (by omega)
    have hnext : addSigned? start v.toInt64 = some (start + v.toInt64) := if_pos hsum
    have hstart' : (start + v.toInt64).toInt = (n + v.toNat : Nat) := by
      rw [hsum, hstart, hvalue, Int.natCast_add]
    obtain ⟨sum, hrest⟩ := ih hstart' (by omega)
    refine ⟨sum, ?_⟩
    rw [List.foldlM_cons, hnext]
    exact hrest

/-- **A sum of signed words is right up to wrapping.** -/
theorem signedSum?_wraps {values : List UInt64} {sum : Int64} (h : signedSum? values = some sum) :
    sum.toUInt64.toNat = amountSum values % 18446744073709551616 := by
  have hsum := toNat_of_foldlM_addSigned? h
  have hstart : (0 : Int64).toUInt64.toNat = 0 := rfl
  rwa [hstart, Nat.zero_add] at hsum

/-- **Amounts whose sum is below `2 ^ 63` have a signed sum.** -/
theorem exists_signedSum? {values : List UInt64} (h : amountSum values < 9223372036854775808) :
    ∃ sum, signedSum? values = some sum := by
  have hstart : (0 : Int64).toInt = (0 : Nat) := rfl
  exact exists_foldlM_addSigned? hstart (by omega)

/-! ## Maturity -/

namespace LedgerEntry

variable {current later maturity maturity' confirmations confirmations' : UInt32}

theorem isMature_mono (hheight : current ≤ later) (hmaturity : maturity' ≤ maturity)
    (hconfirmations : confirmations' ≤ confirmations) {e : LedgerEntry}
    (h : e.isMature current maturity confirmations = true) :
    e.isMature later maturity' confirmations' = true := by
  rw [UInt32.le_iff_toNat_le] at hheight hmaturity hconfirmations
  unfold isMature at *
  cases hblock : e.block with
  | none =>
    rw [hblock] at h
    have hzero : confirmations = 0 := eq_of_beq h
    rw [hzero, UInt32.toNat_zero] at hconfirmations
    exact beq_of_eq (UInt32.toNat_inj.1 (Nat.le_zero.1 hconfirmations))
  | some block =>
    rw [hblock] at h
    simp only [Bool.and_eq_true, Bool.or_eq_true, decide_eq_true_eq] at h ⊢
    exact ⟨by omega, h.2.imp id fun hdepth => by omega⟩

/-- Without a bar an entry is mature from its own height on. -/
theorem isMature_zero {e : LedgerEntry} (h : ∀ block ∈ e.block, block.height ≤ current) :
    e.isMature current 0 0 = true := by
  unfold isMature
  cases hblock : e.block with
  | none => rfl
  | some block =>
    have hheight := UInt32.le_iff_toNat_le.1 (h block hblock)
    simp only [Bool.and_eq_true, Bool.or_eq_true, decide_eq_true_eq, UInt32.toNat_zero]
    exact ⟨by omega, .inr (by omega)⟩

theorem row_injective : Function.Injective row := by
  intro e e' h
  have hread := e.decode_row
  rw [h, e'.decode_row] at hread
  exact (Except.ok.inj hread).symm

end LedgerEntry

/-! ## Queries of one ledger -/

namespace Store

variable {s : Store} {wallet : Int} {account : UInt32} {es held : List LedgerEntry}

/-- The rows that both queries pick out are those of the unspent entries. -/
theorem rows_perm_heldBy (account : UInt32) (hes : es.map LedgerEntry.row =
    Sorting.sortBy (notAfter byKey) (s.ledger.filter (·.isOf wallet))) :
    (s.ledger.filter (isUnspentOf wallet account)).Perm
      ((LedgerEntry.heldBy wallet account es).map LedgerEntry.row) := by
  have htest : isUnspentOf wallet account ∘ LedgerEntry.row = fun e =>
      e.address.group.wallet == wallet && e.address.group.account == account && !e.isSpent :=
    funext fun e => e.testsAs_row.unspent wallet account
  have howned : ∀ r, (isUnspentOf wallet account r && r.isOf wallet) = isUnspentOf wallet account r := by
    intro r
    unfold isUnspentOf LedgerRow.isOf
    cases r.key.address.group.wallet == wallet <;> simp
  have hfilter : (s.ledger.filter (·.isOf wallet)).filter (isUnspentOf wallet account) =
      s.ledger.filter (isUnspentOf wallet account) := by
    rw [List.filter_filter]
    exact List.filter_congr fun r _ => howned r
  calc (s.ledger.filter (isUnspentOf wallet account)).Perm
        ((es.map LedgerEntry.row).filter (isUnspentOf wallet account)) := by
          rw [← hfilter, hes]
          exact ((Sorting.sortBy_perm _ _).filter _).symm
    _ = (LedgerEntry.heldBy wallet account es).map LedgerEntry.row := by
      rw [List.filter_map, htest, LedgerEntry.heldBy]

/-- What can be spent is what is held and mature. -/
theorem exists_spendableOutputs (hs : s.WellFormed)
    (hrows : (s.ledger.filter (isUnspentOf wallet account)).Perm (held.map LedgerEntry.row))
    (current maturity confirmations : UInt32) : ∃ out,
      s.spendableOutputs wallet account current maturity confirmations = .ok out ∧
        out.Perm (held.filter (·.isMature current maturity confirmations)) := by
  obtain ⟨out, hread, hout⟩ := hs.exists_entries
    (compareLex (compareOn (·.deposit.height))
      (compareLex (fun a b => a.key.outputOrder b.key) byKey))
    fun r => isUnspentOf wallet account r && isMature current maturity confirmations r.deposit
  have htest : (fun r : LedgerRow => isMature current maturity confirmations r.deposit) ∘
      LedgerEntry.row = (·.isMature current maturity confirmations) :=
    funext fun e => e.testsAs_row.mature current maturity confirmations
  refine ⟨out, hread, (List.map_perm_map_iff LedgerEntry.row_injective).1 ?_⟩
  calc (out.map LedgerEntry.row).Perm ((s.ledger.filter (isUnspentOf wallet account)).filter
        fun r => isMature current maturity confirmations r.deposit) := by
          rw [hout, List.filter_filter]
          simp only [Bool.and_comm]
          exact Sorting.sortBy_perm _ _
    List.Perm _ ((held.map LedgerEntry.row).filter
        fun r => isMature current maturity confirmations r.deposit) := hrows.filter _
    _ = (held.filter (·.isMature current maturity confirmations)).map LedgerEntry.row := by
      rw [List.filter_map, htest]

/-- The balance adds up what is held, in and outside blocks. -/
theorem exists_sums
    (hrows : (s.ledger.filter (isUnspentOf wallet account)).Perm (held.map LedgerEntry.row)) :
    ∃ mined pending : List UInt64,
      amountSum mined = LedgerEntry.total (held.filter (·.isConfirmed)) ∧
      amountSum pending = LedgerEntry.total (held.filter fun e => !e.isConfirmed) ∧
      ∀ b, s.balance wallet account = .ok b ↔ ∃ confirmed unconfirmed,
        signedSum? mined = some confirmed ∧ signedSum? pending = some unconfirmed ∧
          b = ⟨confirmed.toUInt64, unconfirmed.toUInt64, held.length⟩ := by
  have hsorted := (Sorting.sortBy_perm (notAfter byScript) _).trans hrows
  have hlength := hsorted.length_eq
  rw [List.length_map] at hlength
  -- the rows of a class, in the order of the query, have the values of the entries of the class
  have hsum : ∀ (p : LedgerRow → Bool) (q : LedgerEntry → Bool), (∀ e, p (LedgerEntry.row e) = q e) →
      amountSum (((Sorting.sortBy (notAfter byScript)
        (s.ledger.filter (isUnspentOf wallet account))).filter p).map (·.deposit.value)) =
          LedgerEntry.total (held.filter q) := by
    intro p q hpq
    have htest : p ∘ LedgerEntry.row = q := funext hpq
    rw [amountSum_of_perm ((hsorted.filter p).map _), List.filter_map, htest, List.map_map]
    rfl
  refine ⟨_, _, hsum (·.deposit.height.isSome) _ fun e => e.testsAs_row.height,
    hsum (not ∘ fun r => r.deposit.height.isSome) _ fun e => congrArg not e.testsAs_row.height,
    fun b => ?_⟩
  unfold balance
  simp only [List.partition_eq_filter_filter, hlength]
  split
  · rename_i confirmed unconfirmed hconfirmed hunconfirmed
    rw [hconfirmed, hunconfirmed]
    constructor
    · intro h
      exact ⟨confirmed, unconfirmed, rfl, rfl, (Except.ok.inj h).symm⟩
    · rintro ⟨_, _, ⟨⟩, ⟨⟩, rfl⟩
      rfl
  · rename_i hnone
    constructor
    · intro h
      cases h
    · rintro ⟨confirmed, unconfirmed, hconfirmed, hunconfirmed, -⟩
      exact (hnone confirmed unconfirmed hconfirmed hunconfirmed).elim

/-- A balance wraps at most. -/
theorem balance_wraps
    (hrows : (s.ledger.filter (isUnspentOf wallet account)).Perm (held.map LedgerEntry.row))
    {b : AccountBalance} (hb : s.balance wallet account = .ok b) :
    b.confirmed.toNat = LedgerEntry.total (held.filter (·.isConfirmed)) % 18446744073709551616 ∧
    b.unconfirmed.toNat =
      LedgerEntry.total (held.filter fun e => !e.isConfirmed) % 18446744073709551616 ∧
    b.utxoCount = held.length := by
  obtain ⟨mined, pending, hmined, hpending, hbalance⟩ := exists_sums hrows
  obtain ⟨confirmed, unconfirmed, hconfirmed, hunconfirmed, rfl⟩ := (hbalance b).1 hb
  rw [← hmined, ← hpending]
  exact ⟨signedSum?_wraps hconfirmed, signedSum?_wraps hunconfirmed, rfl⟩

/-- There is a balance if both sums are signed words. -/
theorem exists_balance
    (hrows : (s.ledger.filter (isUnspentOf wallet account)).Perm (held.map LedgerEntry.row))
    (hconfirmed : LedgerEntry.total (held.filter (·.isConfirmed)) < 9223372036854775808)
    (hunconfirmed : LedgerEntry.total (held.filter fun e => !e.isConfirmed) < 9223372036854775808) :
    ∃ b, s.balance wallet account = .ok b := by
  obtain ⟨mined, pending, hmined, hpending, hbalance⟩ := exists_sums hrows
  rw [← hmined] at hconfirmed
  rw [← hpending] at hunconfirmed
  obtain ⟨confirmed, hconfirmed⟩ := exists_signedSum? hconfirmed
  obtain ⟨unconfirmed, hunconfirmed⟩ := exists_signedSum? hunconfirmed
  exact ⟨_, (hbalance _).2 ⟨confirmed, unconfirmed, hconfirmed, hunconfirmed, rfl⟩⟩

/-- **The queries of an account agree with its ledger entries.** -/
theorem WellFormed.holds (hs : s.WellFormed) (hes : es.map LedgerEntry.row =
    Sorting.sortBy (notAfter byKey) (s.ledger.filter (·.isOf wallet))) (account : UInt32) :
    s.Holds wallet account (LedgerEntry.heldBy wallet account es) := by
  have hrows := rows_perm_heldBy account hes
  have hspendable := exists_spendableOutputs hs hrows
  have hnodup : (LedgerEntry.heldBy wallet account es).Nodup := by
    refine List.Nodup.of_map LedgerEntry.row (hrows.nodup ?_)
    exact (List.Nodup.of_map _ hs.ledger_keys).filter _
  constructor
  case nodup => exact hnodup
  case spendable =>
    intro current maturity confirmations
    obtain ⟨out, hread, hperm⟩ := hspendable current maturity confirmations
    refine ⟨out, hread, hperm.symm.nodup (hnodup.filter _), fun e => ?_⟩
    rw [hperm.mem_iff, List.mem_filter]
  case grows =>
    intro current later maturity maturity' confirmations confirmations' out out' hheight hmaturity
      hconfirmations hout hout' e he
    obtain ⟨_, hread, hperm⟩ := hspendable current maturity confirmations
    obtain ⟨_, hread', hperm'⟩ := hspendable later maturity' confirmations'
    cases hread.symm.trans hout
    cases hread'.symm.trans hout'
    obtain ⟨hheld, hmature⟩ := List.mem_filter.1 (hperm.mem_iff.1 he)
    exact hperm'.mem_iff.2
      (List.mem_filter.2 ⟨hheld, LedgerEntry.isMature_mono hheight hmaturity hconfirmations hmature⟩)
  case all =>
    intro current hreached
    obtain ⟨out, hread, hperm⟩ := hspendable current 0 0
    rw [List.filter_eq_self.2 fun e he => LedgerEntry.isMature_zero (hreached e he)] at hperm
    exact ⟨out, hread, hperm⟩
  case balanced =>
    intro hconfirmed hunconfirmed
    obtain ⟨b, hb⟩ := exists_balance hrows hconfirmed hunconfirmed
    obtain ⟨hmined, hpending, hcount⟩ := balance_wraps hrows hb
    rw [Nat.mod_eq_of_lt (by omega)] at hmined hpending
    exact ⟨b, hb, hmined, hpending, hcount⟩
  case wrapped => exact fun b hb => balance_wraps hrows hb

end Store

namespace Sample

/-- A coinbase output, and two outputs of the mempool whose values add up to `2 ^ 64`. -/
def amounts : Batch where
  outputs := [{ output receiving.toKeyHash 0 with value := 18446744073709551615 },
    { output receiving.toKeyHash 1 with value := 1 },
    { output receiving.toKeyHash 2 with block := some paying.ref, coinbase := true }]
  spends := []

theorem perform_amounts :
    ((opened unbuffered).perform (.processBatch amounts none fun _ => none)).map (fun ix =>
      ((ix.store.wallet "savings").map (·.id),
        (ix.store.ledgerEntries "savings").map fun es => (LedgerEntry.heldBy 1 0 es).map (·.value),
        ix.store.balance 1 0)) =
    .ok (.ok 1, .ok [18446744073709551615, 1, 5000], .ok ⟨5000, 0, 3⟩) := by
  decide +kernel

end Sample

namespace Indexer

open Store

variable {ix : Indexer} {name : String} {w : Wallet}

/-- **Ledger entries, spendable outputs and balance agree** on every account of a wallet in every
reachable state. -/
theorem funds_agree (hreach : ix.Reachable) (hw : ix.store.wallet name = .ok w) (account : UInt32) :
    ∃ es, ix.store.ledgerEntries name = .ok es ∧
      ix.store.Holds w.id account (LedgerEntry.heldBy w.id account es) := by
  obtain ⟨es, hread, hes⟩ := hreach.wellFormed.exists_entries byKey (·.isOf w.id)
  exact ⟨es, bind_eq_ok_iff.2 ⟨w, hw, hread⟩, hreach.wellFormed.holds hes account⟩

/-- What is in no block adds up to nothing, as the sum wraps. -/
theorem funds_agree_wrapped : ∃ (ix : Indexer) (w : Wallet) (es : List LedgerEntry), ix.Reachable ∧
    ix.store.wallet "savings" = .ok w ∧
    ix.store.ledgerEntries "savings" = .ok es ∧
    ix.store.Holds w.id 0 (LedgerEntry.heldBy w.id 0 es) ∧
    (LedgerEntry.heldBy w.id 0 es).map (·.value) = [18446744073709551615, 1, 5000] ∧
    ix.store.balance w.id 0 = .ok ⟨5000, 0, 3⟩ := by
  obtain ⟨past, hist, -⟩ := Sample.history Sample.unbuffered
  obtain ⟨ix, hperform, hanswers⟩ := map_eq_ok_iff.1 Sample.perform_amounts
  simp only [Prod.mk.injEq] at hanswers
  obtain ⟨hwallet, hledger, hbalance⟩ := hanswers
  obtain ⟨w, hw, hid⟩ := map_eq_ok_iff.1 hwallet
  have hopened : (Sample.opened Sample.unbuffered).Reachable := ⟨_, past, hist⟩
  have hreach : ix.Reachable := hopened.perform hperform
  obtain ⟨es, hes, hholds⟩ := funds_agree hreach hw 0
  rw [hes] at hledger
  rw [← hid] at hledger hbalance
  exact ⟨ix, w, es, hreach, hw, hes, hholds, Except.ok.inj hledger, hbalance⟩

end Indexer

end WalletLedger
