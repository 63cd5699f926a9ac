import WalletLedger.Proofs.Reorg

/-!
# Confirmed sides of a row

The deposit and the spend of a row are confirmed apart from each other. Whatever writes to the ledger
leaves a confirmed side as it is. So only a rollback takes one back, and a removal, which deletes the
row of an unconfirmed deposit together with the spend of it, also when that spend is confirmed.

* `LedgerRow.Continues`, `Store.Keeps`: a row and a ledger with the confirmed sides of earlier ones.
* `Store.keeps_of_write`, `Store.keeps_of_writes`: the step and the run of writes.
* `Indexer.writes_of_perform`: a call that undoes nothing only writes.
* `Indexer.confirmed_sides_stay`: what every call but a rollback leaves.
-/

namespace WalletLedger

/-- A later row of the same key, with the sides that were confirmed. -/
structure LedgerRow.Continues (r r' : LedgerRow) : Prop where
  key : r'.key = r.key
  deposit : r.deposit.isConfirmed = true → r'.deposit = r.deposit
  spend : r.spend.isConfirmed = true → r'.spend = r.spend

theorem LedgerRow.Continues.refl (r : LedgerRow) : r.Continues r := ⟨rfl, fun _ => rfl, fun _ => rfl⟩

theorem LedgerRow.Continues.trans {r q t : LedgerRow} (h : r.Continues q) (h' : q.Continues t) :
    r.Continues t := by
  refine ⟨h'.key.trans h.key, fun hdeposit => ?_, fun hspend => ?_⟩
  · have hsame := h.deposit hdeposit
    rw [← hsame] at hdeposit
    exact (h'.deposit hdeposit).trans hsame
  · have hsame := h.spend hspend
    rw [← hsame] at hspend
    exact (h'.spend hspend).trans hsame

namespace Store

variable {s m t : Store} {staged : Batch → Prop} {r : LedgerRow}

/-- No row is gone, and its confirmed sides are as they were. -/
def Keeps (s t : Store) : Prop := ∀ r ∈ s.ledger, ∃ r' ∈ t.ledger, r.Continues r'

theorem Keeps.of_ledger_eq (h : t.ledger = s.ledger) : s.Keeps t := by
  intro r hr
  exact ⟨r, h ▸ hr, .refl r⟩

theorem Keeps.trans (h : s.Keeps m) (h' : m.Keeps t) : s.Keeps t := by
  intro r hr
  obtain ⟨r', hr', hcontinues⟩ := h r hr
  obtain ⟨r'', hr'', hcontinues'⟩ := h' r' hr'
  exact ⟨r'', hr'', hcontinues.trans hcontinues'⟩

/-! ## Writes -/

/-- A deposit replaces unconfirmed deposits only. -/
theorem keeps_record (hs : s.WellFormed) (d : Deposit) : s.Keeps (s.record d).2 := by
  rcases s.record_cases d with ⟨-, heq⟩ | ⟨row, hrow, hkey, hunconfirmed, heq⟩ | ⟨row, -, -, -, heq⟩
  · rw [heq]
    intro r hr
    exact ⟨r, List.mem_append_left _ hr, .refl r⟩
  · rw [heq]
    intro r hr
    refine ⟨_, List.mem_map_of_mem hr, ?_⟩
    by_cases hk : r.key = d.key
    · rw [if_pos hk]
      -- the row that is replaced is the one that was found unconfirmed
      have hsame : r = row := hs.eq_of_key hr hrow (hk.trans hkey.symm)
      have hnot : r.deposit.isConfirmed = false := by
        rw [hsame, ← Bool.not_eq_true', ← (hs.rows row hrow).isUnconfirmed_eq]
        exact hunconfirmed
      refine ⟨rfl, fun hconfirmed => ?_, fun _ => rfl⟩
      rw [hnot] at hconfirmed
      cases hconfirmed
    · rw [if_neg hk]
      exact .refl r
  · rw [heq]
    exact .of_ledger_eq rfl

/-- A batch spends no row whose spend is confirmed. -/
theorem keeps_matchSpends (s : Store) (scope : Scope) (batch : Batch) :
    s.Keeps (s.matchSpends scope batch).2 := by
  intro r hr
  refine ⟨_, List.mem_map_of_mem hr, ?_⟩
  by_cases hspent : s.isSpentBy scope batch.spends r = true
  · rw [if_pos hspent]
    obtain ⟨hkey, hdeposit⟩ := r.key_spendBy batch.spends
    refine ⟨hkey, fun _ => hdeposit, fun hconfirmed => ?_⟩
    rw [(hit_of_isSpentBy hspent).1] at hconfirmed
    cases hconfirmed
  · rw [if_neg hspent]
    exact .refl r

/-- **A write leaves confirmed sides** as they are. -/
theorem keeps_of_write (hs : s.WellFormed) (h : Write staged s t) : s.Keeps t := by
  rcases ledger_cases h with ⟨_, _, d, -, -, rfl⟩ | ⟨scope, batch, -, rfl⟩ | ⟨hledger, -, -⟩
  · exact keeps_record hs d
  · exact keeps_matchSpends s scope batch
  · exact .of_ledger_eq hledger

/-- **Any number of writes leave confirmed sides** as they are. -/
theorem keeps_of_writes (hs : s.WellFormed) (h : Writes staged s t) : s.Keeps t := by
  induction h with
  | refl => exact .of_ledger_eq rfl
  | tail hwrites hwrite ih => exact ih.trans (keeps_of_write (wellFormed_of_writes hs hwrites) hwrite)

/-! ## Removals -/

/-- A removal deletes the rows of pending deposits and leaves confirmed sides of the others. -/
theorem keeps_dropUnconfirmed (hs : s.WellFormed) (wallet : Int) (txid : Hash256)
    (hr : r ∈ s.ledger) :
    (isPendingDeposit wallet txid r = true ∧
      ∀ r' ∈ (s.dropUnconfirmed wallet txid).2.ledger, r'.key ≠ r.key) ∨
    (isPendingDeposit wallet txid r = false ∧
      ∃ r' ∈ (s.dropUnconfirmed wallet txid).2.ledger, r.Continues r') := by
  cases hpending : isPendingDeposit wallet txid r with
  | true =>
    refine .inl ⟨rfl, ?_⟩
    intro r' hr' hkey
    obtain ⟨q, hq, rfl⟩ := List.mem_map.1 hr'
    obtain ⟨hmem, hkept⟩ := List.mem_filter.1 hq
    have hqkey : q.key = r.key := by
      rw [← hkey]
      split <;> rfl
    rw [hs.eq_of_key hmem hr hqkey, hpending] at hkept
    cases hkept
  | false =>
    refine .inr ⟨rfl, _, List.mem_map_of_mem (List.mem_filter.2 ⟨hr, by rw [hpending]; rfl⟩), ?_⟩
    by_cases hspend : isPendingSpend wallet txid r = true
    · rw [if_pos hspend]
      refine ⟨rfl, fun _ => rfl, fun hconfirmed => ?_⟩
      -- a spend is cleared only while both its block columns are absent
      simp only [isPendingSpend, SpendSide.isUnconfirmed, Bool.and_eq_true,
        Option.isNone_iff_eq_none] at hspend
      rw [SpendSide.isConfirmed, hspend.2.1] at hconfirmed
      cases hconfirmed
    · rw [if_neg hspend]
      exact .refl r

end Store

namespace Sample

/-- A block that spends what only the mempool has received. -/
def early : PlacedBlock := ⟨1, ⟨1, Hash256.zero, Hash256.zero, 9, 0, 0, [spend]⟩⟩

/-- The row of the unconfirmed deposit with its confirmed spend. -/
def spentEarly : LedgerRow :=
  { received none 7 with
    spend := .ofSpend ⟨spend.txid, 9, some early.ref, false, 4500, ⟨pay.txid, 0⟩⟩ }

/-- The row of the change that came back. -/
def changeEarly : LedgerRow where
  key := ⟨⟨⟨1, 0, 1⟩, 0⟩, change.toKeyHash, spend.txid.bytes, 1⟩
  deposit := ⟨change.toKeyHash, 1500, some early.ref.height, some early.ref.hash.bytes, 9, false⟩
  spend := .unspent

/-- The transaction of the deposit is removed after the block that spends it. -/
theorem perform_early : (((opened unbuffered).perform (.processTransaction pay 7)).bind fun paid =>
    (paid.perform (.processBlock early view)).bind fun ix =>
      (ix.perform (.removeUnconfirmed "savings" pay.txid)).map fun ix' =>
        (ix.store.ledger, ix'.store.ledger)) = .ok ([spentEarly, changeEarly], [changeEarly]) := by
  decide +kernel

end Sample

namespace Indexer

open Store

variable {ix ix' : Indexer}

/-- A call that undoes nothing and opens no store writes to the open one. -/
theorem writes_of_perform {call : Call} (hundoing : call.undoing? = none)
    (hopen : ∀ network config, call ≠ .reopen network config) (h : ix.perform call = .ok ix') :
    Writes (fun _ => True) ix.store ix'.store := by
  cases hb : call.batch? with
  | some b =>
    rcases perform_batch (Option.mem_def.2 hb) h with hstore | ⟨chain, outcome, happly⟩
    · rw [hstore]
    · exact writes_applyBatch trivial happly
  | none =>
    cases call with
    | createWallet new tip view =>
      obtain ⟨answer, hanswer, rfl⟩ := map_eq_ok_iff.1 h
      obtain ⟨-, locator, hbuild, hinsert⟩ := insert_of_createWallet hanswer
      exact .single (.wallet hbuild hinsert)
    | createAccount wallet index name extendedKey created =>
      obtain ⟨answer, hanswer, rfl⟩ := map_eq_ok_iff.1 h
      obtain ⟨-, howner, opened, addresses, hinsert, hextend⟩ := extend_of_createAccount hanswer
      exact writes_of_account howner hinsert hextend
    | reopen network config => exact absurd rfl (hopen network config)
    | rollback wallet target chain => cases hundoing
    | removeUnconfirmed wallet txid => cases hundoing
    | _ => cases hb

/-- A call that undoes nothing leaves the confirmed sides in every store. -/
theorem keeps_of_perform {call : Call} (hundoing : call.undoing? = none) (hs : ix.store.WellFormed)
    (h : ix.perform call = .ok ix') (network : Network) :
    (ix.storeOf network).Keeps (ix'.storeOf network) := by
  by_cases hopen : ∃ n config, call = .reopen n config
  · obtain ⟨n, config, rfl⟩ := hopen
    cases h
    rw [storeOf_reopen]
    exact .of_ledger_eq rfl
  · have hwrites := writes_of_perform hundoing (fun n config heq => hopen ⟨n, config, heq⟩) h
    rcases @storeOf_perform (fun _ => True) _ _ _ (fun _ _ => trivial) h network with
      heq | ⟨heq, heq', -⟩
    · rw [heq]
      exact .of_ledger_eq rfl
    · rw [heq, heq']
      exact keeps_of_writes hs hwrites

/-- A row is continued by a call that is no rollback, unless the call removes its pending deposit. -/
theorem continues_or_removed (hs : ix.store.WellFormed) {call : Call}
    (hcall : ∀ wallet target chain, call ≠ .rollback wallet target chain)
    (h : ix.perform call = .ok ix') {network : Network} {r : LedgerRow}
    (hr : r ∈ (ix.storeOf network).ledger) :
    (∃ r' ∈ (ix'.storeOf network).ledger, r.Continues r') ∨
    ∃ name txid w, call = .removeUnconfirmed name txid ∧ network = ix.network ∧
      ix.store.wallet name = .ok w ∧ isPendingDeposit w.id txid r = true ∧
      ∀ r' ∈ (ix'.storeOf network).ledger, r'.key ≠ r.key := by
  cases hundoing : call.undoing? with
  | none => exact .inl (keeps_of_perform hundoing hs h network r hr)
  | some wallet =>
    cases call with
    | rollback wallet target chain => exact absurd rfl (hcall wallet target chain)
    | removeUnconfirmed name txid =>
      obtain ⟨w, hw, rfl⟩ := drop_of_removeUnconfirmed h
      by_cases hnetwork : network = ix.network
      · subst hnetwork
        rw [storeOf_network] at hr
        have hstore : ({ ix with store := (ix.store.dropUnconfirmed w.id txid).2 } : Indexer).storeOf
            ix.network = (ix.store.dropUnconfirmed w.id txid).2 := if_pos rfl
        rw [hstore]
        rcases keeps_dropUnconfirmed hs w.id txid hr with ⟨hpending, hgone⟩ | ⟨-, hkept⟩
        · exact .inr ⟨name, txid, w, rfl, rfl, hw, hpending, hgone⟩
        · exact .inl hkept
      · -- the stores of other networks are as they were left
        rw [storeOf, if_neg hnetwork] at hr ⊢
        exact .inl ⟨r, hr, .refl r⟩
    | _ => cases hundoing

/-- **Confirmed sides of a row stay**, in every store and under every call but a rollback: a row with
a confirmed deposit is still there and says the same of it, and a row with a confirmed spend too. The
one exception is a row of an unconfirmed deposit whose transaction is removed from its wallet: it is
gone, also when its spend is confirmed. -/
theorem confirmed_sides_stay (hreach : ix.Reachable) {call : Call}
    (hcall : ∀ wallet target chain, call ≠ .rollback wallet target chain)
    (h : ix.perform call = .ok ix') {network : Network} {r : LedgerRow}
    (hr : r ∈ (ix.storeOf network).ledger) :
    (r.deposit.isConfirmed = true →
      ∃ r' ∈ (ix'.storeOf network).ledger, r'.key = r.key ∧ r'.deposit = r.deposit) ∧
    (r.spend.isConfirmed = true →
      (∃ r' ∈ (ix'.storeOf network).ledger, r'.key = r.key ∧ r'.spend = r.spend) ∨
      ∃ name txid w, call = .removeUnconfirmed name txid ∧ network = ix.network ∧
        ix.store.wallet name = .ok w ∧ isPendingDeposit w.id txid r = true ∧
        ∀ r' ∈ (ix'.storeOf network).ledger, r'.key ≠ r.key) := by
  have hs := hreach.wellFormed
  rcases continues_or_removed hs hcall h hr with ⟨r', hr', hcontinues⟩ | hremoved
  · exact ⟨fun hdeposit => ⟨r', hr', hcontinues.key, hcontinues.deposit hdeposit⟩,
      fun hspend => .inl ⟨r', hr', hcontinues.key, hcontinues.spend hspend⟩⟩
  · refine ⟨fun hdeposit => ?_, fun _ => .inr hremoved⟩
    obtain ⟨name, txid, w, -, rfl, -, hpending, -⟩ := hremoved
    rw [storeOf_network] at hr
    -- a pending deposit is not confirmed
    rw [isPendingDeposit, Bool.and_eq_true, (hs.rows r hr).isUnconfirmed_eq, hdeposit] at hpending
    cases hpending.2

/-- The removal of a transaction takes a confirmed spend along, whose deposit was never confirmed. The
confirmed deposit of the other row stays. -/
theorem confirmed_sides_stay_removed : ∃ ix ix' : Indexer, ix.Reachable ∧
    ix.perform (.removeUnconfirmed "savings" Sample.pay.txid) = .ok ix' ∧
    Sample.spentEarly ∈ ix.store.ledger ∧ Sample.spentEarly.spend.isConfirmed = true ∧
    (∀ r' ∈ ix'.store.ledger, r'.key ≠ Sample.spentEarly.key) ∧
    Sample.changeEarly ∈ ix.store.ledger ∧ Sample.changeEarly.deposit.isConfirmed = true ∧
    ∃ r' ∈ ix'.store.ledger,
      r'.key = Sample.changeEarly.key ∧ r'.deposit = Sample.changeEarly.deposit := by
  obtain ⟨paid, hpay, hrun⟩ := bind_eq_ok_iff.1 Sample.perform_early
  obtain ⟨ix, hblock, hrun⟩ := bind_eq_ok_iff.1 hrun
  obtain ⟨ix', hremove, hledgers⟩ := map_eq_ok_iff.1 hrun
  simp only [Prod.mk.injEq] at hledgers
  obtain ⟨hbefore, hafter⟩ := hledgers
  obtain ⟨past, hist, -⟩ := Sample.history Sample.unbuffered
  have hopened : (Sample.opened Sample.unbuffered).Reachable := ⟨_, past, hist⟩
  have hreach : ix.Reachable := (hopened.perform hpay).perform hblock
  have hspent : Sample.spentEarly ∈ ix.store.ledger := by
    rw [hbefore]
    exact List.mem_cons_self
  have hchange : Sample.changeEarly ∈ ix.store.ledger := by
    rw [hbefore]
    exact List.mem_cons_of_mem _ List.mem_cons_self
  have hcall : ∀ wallet target chain,
      Call.removeUnconfirmed "savings" Sample.pay.txid ≠ .rollback wallet target chain := by
    intro wallet target chain h
    cases h
  obtain ⟨-, hgone⟩ := confirmed_sides_stay hreach hcall hremove
    (ix.storeOf_network.symm ▸ hspent)
  obtain ⟨hstays, -⟩ := confirmed_sides_stay hreach hcall hremove
    (ix.storeOf_network.symm ▸ hchange)
  have hstore : ix'.storeOf ix.network = ix'.store := by
    obtain ⟨w, -, rfl⟩ := drop_of_removeUnconfirmed hremove
    exact if_pos rfl
  rw [hstore] at hgone hstays
  refine ⟨ix, ix', hreach, hremove, hspent, rfl, ?_, hchange, rfl, hstays rfl⟩
  rcases hgone rfl with ⟨r', hr', hkey, -⟩ | ⟨name, txid, w, -, -, -, -, hgone⟩
  · -- the row that is left has another address
    rw [hafter, List.mem_singleton] at hr'
    rw [hr'] at hkey
    exact absurd hkey (by decide)
  · exact hgone

end Indexer

end WalletLedger
