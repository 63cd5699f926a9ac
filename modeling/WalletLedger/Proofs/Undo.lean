import WalletLedger.Proofs.Payments
import WalletLedger.Proofs.Rollback

/-!
# Undoing in one wallet

A rollback and a removal undo rows of one wallet and leave the ledgers of all others alone. Payments
belong to no wallet: they name a row by time and output. So what the call drops is the payments of
the rows that it undoes, also where a row of another wallet has the same time and output.

* `Call.undoes`: the rows that a call undoes.
* `Store.Undone`: what undoing rows of one wallet does to a store.
* `Indexer.undo_spares_others`: what the queries show of other wallets.
-/

namespace WalletLedger

/-- The wallet that a call undoes rows of. -/
def Call.undoing? : Call → Option String
  | .rollback wallet _ _ => some wallet
  | .removeUnconfirmed wallet _ => some wallet
  | _ => none

/-- Whether a call on a wallet undoes a row, by deleting it or by clearing its spend. A rollback to a
height that the wallet is not above undoes nothing. -/
def Call.undoes (w : Wallet) : Call → LedgerRow → Bool
  | .rollback _ target _, r =>
    w.tip.any (target < ·.height) && (r.isOf w.id &&
      (isAbove target r.spend.height || isAbove target r.deposit.height))
  | .removeUnconfirmed _ txid, r =>
    Store.isPendingSpend w.id txid r || Store.isPendingDeposit w.id txid r
  | _, _ => false

/-- Whether a payment of an output names a row. -/
def LedgerRow.isNamedBy (r : LedgerRow) (p : Payment) : Bool :=
  Store.isOfOutput p.outpoint r && r.deposit.time == p.time

/-- The payment of an output that a stored payment is read as. -/
def PaymentRow.read (o : OutPoint) (p : PaymentRow) : Payment :=
  ⟨p.source.time, o, p.index, p.script, p.value⟩

namespace Store

variable {s s' : Store} {wallet other : Int} {rows : LedgerRow → Bool}

/-- What undoing rows of a wallet does to a store. -/
structure Undone (name : String) (wallet : Int) (rows : LedgerRow → Bool) (s s' : Store) : Prop where
  wallets : ∀ other, other ≠ name → s'.walletRow? other = s.walletRow? other
  ledger : ∀ other, other ≠ wallet →
    s'.ledger.filter (·.isOf other) = s.ledger.filter (·.isOf other)
  payments : s'.payments = s.paymentsWithout rows

/-! ## Wallets by identifier -/

/-- Wallets of other names have other identifiers. -/
theorem WellFormed.wallet_id_ne (hs : s.WellFormed) {a b : String} {v w : Wallet} (hne : a ≠ b)
    (hv : s.wallet a = .ok v) (hw : s.wallet b = .ok w) : v.id ≠ w.id := by
  obtain ⟨row, hrow, -, hname, hid, -⟩ := row_of_wallet hv
  obtain ⟨row', hrow', -, hname', hid', -⟩ := row_of_wallet hw
  intro h
  have hsame := hs.eq_of_wallet_id hrow hrow' (hid.trans (h.trans hid'.symm))
  exact hne (hname.symm.trans ((congrArg WalletRow.name hsame).trans hname'))

/-- Moving a wallet leaves the wallets of other names. -/
theorem walletRow?_setTip_of_ne (hs : s.WellFormed) {a b : String} {w : Wallet} (hne : a ≠ b)
    (hw : s.wallet b = .ok w) (tip : BlockRef) (hashes : List Hash256) :
    (s.setTip w.id tip hashes).walletRow? a = s.walletRow? a := by
  obtain ⟨row', hrow', -, hname', hid', -⟩ := row_of_wallet hw
  rw [walletRow?_setTip]
  cases hfound : s.walletRow? a with
  | none => rfl
  | some row =>
    have hid : row.id ≠ w.id := by
      intro h
      have hsame := hs.eq_of_wallet_id (List.mem_of_find?_eq_some hfound) hrow' (h.trans hid'.symm)
      have hfoundname : row.name = a := by simpa using List.find?_some hfound
      exact hne (hfoundname.symm.trans ((congrArg WalletRow.name hsame).trans hname'))
    rw [Option.map_some, if_neg hid]

/-! ## What the calls undo -/

/-- Rows of another wallet are neither deleted nor cleared. -/
theorem filter_clear {keep clear : LedgerRow → Bool} (hother : other ≠ wallet)
    (hkeep : ∀ r, keep r = false → r.isOf wallet = true)
    (hclear : ∀ r, clear r = true → r.isOf wallet = true) (ledger : List LedgerRow) :
    ((ledger.filter keep).map fun r => if clear r then { r with spend := .unspent } else r).filter
      (·.isOf other) = ledger.filter (·.isOf other) := by
  have hnot : ∀ r : LedgerRow, r.isOf other = true → r.isOf wallet = false := by
    intro r hr
    by_contra hown
    rw [Bool.not_eq_false, LedgerRow.isOf, beq_iff_eq] at hown
    rw [LedgerRow.isOf, beq_iff_eq] at hr
    exact hother (hr.symm.trans hown)
  rw [filter_map_comm fun r _ => ?_, List.filter_filter, map_eq_self fun r hr => ?_]
  · refine List.filter_congr fun r _ => ?_
    cases hr : r.isOf other with
    | false => rfl
    | true =>
      have hkept : keep r = true := by
        by_contra h
        have hown := hkeep r (by simpa using h)
        rw [hnot r hr] at hown
        cases hown
      rw [hkept, Bool.and_self]
  · have hr := (Bool.and_eq_true_iff.1 (List.mem_filter.1 hr).2).1
    refine if_neg fun h => ?_
    have hown := hclear r h
    rw [hnot r hr] at hown
    cases hown
  · split <;> rfl

/-- A rollback undoes what it should. -/
theorem undone_of_rollback (hs : s.WellFormed) {name : String} {w : Wallet} {target : UInt32}
    {chain : ChainView} {moved : Bool} (hw : s.wallet name = .ok w)
    (h : s.rollback w target chain = .ok (moved, s')) :
    Undone name w.id ((Call.rollback name target chain).undoes w) s s' := by
  unfold rollback at h
  split at h
  · rename_i habove
    split at h
    · cases h
    · rename_i hash _
      obtain ⟨locator, hbuild, h⟩ := bind_eq_ok_iff.1 h
      cases h
      refine ⟨fun other hne => ?_, fun other hne => ?_, ?_⟩
      · exact walletRow?_setTip_of_ne (s := s.undoAbove w.id target) (hs.withCleared fun p hp =>
          (List.mem_filter.1 hp).1) hne hw _ _
      · refine filter_clear hne (fun r hr => ?_) (fun r hr => ?_) s.ledger
        · rw [Bool.not_eq_false', Bool.and_eq_true] at hr
          exact hr.1
        · exact (Bool.and_eq_true_iff.1 hr).1
      · have hundoes : (Call.rollback name target chain).undoes w = fun r => r.isOf w.id &&
            (isAbove target r.spend.height || isAbove target r.deposit.height) := by
          funext r
          rw [Call.undoes, habove, Bool.true_and]
        rw [hundoes]
        rfl
  · rename_i habove
    cases h
    refine ⟨fun _ _ => rfl, fun _ _ => rfl, ?_⟩
    -- the wallet is not above the height, so no row counts as undone
    refine (List.filter_eq_self.2 fun p _ => ?_).symm
    rw [Bool.not_eq_true', List.any_eq_false]
    intro r _ hr
    rw [Call.undoes, Bool.not_eq_true _ |>.mp habove] at hr
    cases hr

/-- A removal undoes what it should. -/
theorem undone_of_removal (s : Store) (name : String) (w : Wallet) (txid : Hash256) :
    Undone name w.id ((Call.removeUnconfirmed name txid).undoes w) s
      (s.dropUnconfirmed w.id txid).2 := by
  refine ⟨fun _ _ => rfl, fun other hne => ?_, rfl⟩
  refine filter_clear hne (fun r hr => ?_) (fun r hr => ?_) s.ledger
  · rw [Bool.not_eq_false', isPendingDeposit, Bool.and_eq_true, Bool.and_eq_true] at hr
    exact hr.1.1
  · rw [isPendingSpend, Bool.and_eq_true, Bool.and_eq_true] at hr
    exact hr.1.1

/-! ## Payments -/

/-- The payments of an output are read row by row. -/
theorem paymentsFor_eq_map (s : Store) (o : OutPoint) :
    s.paymentsFor o = .ok ((Sorting.sortBy (notAfter paymentOrder) (s.payments.filter fun p =>
      p.source.txid == o.txid.bytes && p.source.vout == o.vout)).map (·.read o)) := by
  refine mapM_eq_ok fun p hp => ?_
  have hout := (List.mem_filter.1 ((Sorting.mem_sortBy _).1 hp)).2
  rw [Bool.and_eq_true, beq_iff_eq, beq_iff_eq] at hout
  unfold PaymentRow.decode PaymentRow.read
  rw [hout.1, readTxid_bytes, hout.2]
  rfl

/-- The payments of an output after rows are undone: those that name such a row are gone. -/
theorem Undone.paymentsFor {name : String} (h : Undone name wallet rows s s') (o : OutPoint) :
    ∃ ps, s.paymentsFor o = .ok ps ∧ s'.paymentsFor o = .ok (ps.filter fun p =>
      !s.ledger.any fun r => rows r && r.isNamedBy p) := by
  refine ⟨_, s.paymentsFor_eq_map o, ?_⟩
  rw [paymentsFor_eq_map, h.payments, paymentsWithout, List.filter_map, List.filter_filter,
    Sorting.filter_sortBy, List.filter_filter]
  have hsame : ∀ p ∈ s.payments,
      ((p.source.txid == o.txid.bytes && p.source.vout == o.vout) &&
        !s.ledger.any fun r => rows r && r.source == p.source) =
      (((fun q : Payment => !s.ledger.any fun r => rows r && r.isNamedBy q) ∘ (·.read o)) p &&
        (p.source.txid == o.txid.bytes && p.source.vout == o.vout)) := by
    intro p _
    rw [Bool.and_comm]
    cases hout : p.source.txid == o.txid.bytes && p.source.vout == o.vout with
    | false => rw [Bool.and_false, Bool.and_false]
    | true =>
      rw [Bool.and_eq_true, beq_iff_eq, beq_iff_eq] at hout
      -- among the payments of one output, a source is a time
      have hnamed : ∀ r : LedgerRow, (r.source == p.source) = r.isNamedBy (p.read o) := by
        intro r
        rw [Bool.eq_iff_iff, beq_iff_eq, LedgerRow.isNamedBy, isOfOutput, Bool.and_eq_true,
          Bool.and_eq_true, beq_iff_eq, beq_iff_eq, beq_iff_eq]
        obtain ⟨source, index, script, value⟩ := p
        obtain ⟨time, txid, vout⟩ := source
        simp only at hout
        simp only [LedgerRow.source, PaymentRow.read, PaymentSource.mk.injEq, hout.1, hout.2]
        tauto
      simp only [Function.comp_apply, hnamed]
  rw [List.filter_congr hsame]

end Store

namespace Sample

/-- The store with a second wallet. -/
def spare : Store :=
  { store with
    wallets := store.wallets ++ [⟨2, "spare", none, Hash256.zero.bytes, [], true, "", "", 0⟩] }

/-- The second wallet has an account on the extended key of the first. -/
def shared : Store :=
  { spare with
    accounts := [account, { account with wallet := 2 }]
    addresses := store.addresses ++ [⟨⟨⟨2, 0, 0⟩, 0⟩, receiving⟩, ⟨⟨⟨2, 0, 1⟩, 0⟩, change⟩] }

/-- The indexer after the second wallet is created. -/
def spared : Indexer := (opened config).reopenedWith spare config

/-- The indexer after the second wallet has its account. -/
def sharing : Indexer := spared.reopenedWith shared unbuffered

theorem reachable_sharing : sharing.Reachable := by
  have hwallet : ((opened config).perform (.createWallet ⟨"spare", "", "", true, 0⟩ none
      fun _ => none)).map (·.store) = .ok spare := by decide +kernel
  have haccount : (spared.perform (.createAccount "spare" 0 "main" extendedKey 0)).map (·.store) =
      .ok shared := by decide +kernel
  obtain ⟨past, hist, -⟩ := history config
  obtain ⟨ix, hspared, -⟩ := hist.reopened (by simp) hwallet config
  obtain ⟨ix', hsharing, -⟩ := Indexer.History.reopened hspared (by simp) haccount unbuffered
  exact ⟨_, _, hsharing⟩

/-- Both wallets receive and spend, and the spend is removed from one. -/
theorem perform_sharing : ((sharing.perform (.processTransaction pay 7)).bind fun ix =>
    (ix.perform (.processTransaction spend 8)).bind fun ix =>
      (ix.perform (.removeUnconfirmed "spare" spend.txid)).map fun ix' =>
        ((ix.store.ledgerEntries "savings").map (·.map (·.isSpent)),
          ix.store.paymentsFor ⟨pay.txid, 0⟩, ix'.store.paymentsFor ⟨pay.txid, 0⟩)) =
    .ok (.ok [true, false], .ok (spend.paymentsFrom 7 ⟨pay.txid, 0⟩), .ok []) := by
  decide +kernel

end Sample

namespace Indexer

open Store

variable {ix ix' : Indexer} {a b : String}

/-- A call that undoes finds its wallet and undoes rows of it alone. -/
theorem undone_of_perform {call : Call} (hs : ix.store.WellFormed) (hcall : call.undoing? = some b)
    (h : ix.perform call = .ok ix') : ∃ w, ix.store.wallet b = .ok w ∧
      Undone b w.id (call.undoes w) ix.store ix'.store := by
  cases call with
  | rollback wallet target chain =>
    cases hcall
    obtain ⟨answer, hanswer, rfl⟩ := map_eq_ok_iff.1 h
    obtain ⟨w, hw, hanswer⟩ := bind_eq_ok_iff.1 hanswer
    obtain ⟨⟨moved, store⟩, hrollback, hanswer⟩ := bind_eq_ok_iff.1 hanswer
    cases hanswer
    exact ⟨w, hw, undone_of_rollback hs hw hrollback⟩
  | removeUnconfirmed wallet txid =>
    cases hcall
    obtain ⟨answer, hanswer, rfl⟩ := map_eq_ok_iff.1 h
    obtain ⟨w, hw, hanswer⟩ := bind_eq_ok_iff.1 hanswer
    cases hanswer
    exact ⟨w, hw, undone_of_removal ix.store b w txid⟩
  | _ => cases hcall

/-- **Undoing in one wallet spares the others.** A rollback of a wallet, or a removal from it, leaves
the ledger of every other wallet as it is. Of the payments of an output exactly those are gone that
name a row undone; so they all stay unless the wallet had such a row of the output and their time. -/
theorem undo_spares_others (hreach : ix.Reachable) (hne : a ≠ b) {call : Call}
    (hcall : call.undoing? = some b) (h : ix.perform call = .ok ix') :
    ix'.store.ledgerEntries a = ix.store.ledgerEntries a ∧
    ∃ w, ix.store.wallet b = .ok w ∧ ∀ o, ∃ ps, ix.store.paymentsFor o = .ok ps ∧
      ix'.store.paymentsFor o = .ok (ps.filter fun p =>
        !ix.store.ledger.any fun r => call.undoes w r && r.isNamedBy p) := by
  have hs := hreach.wellFormed
  obtain ⟨w, hw, hundone⟩ := undone_of_perform hs hcall h
  refine ⟨?_, w, hw, hundone.paymentsFor⟩
  have hsame : ix'.store.wallet a = ix.store.wallet a := by
    rw [wallet, wallet, hundone.wallets a hne]
  refine ledgerEntries_congr hsame fun v hv => ?_
  exact hundone.ledger v.id (hs.wallet_id_ne hne hv hw)

theorem Reachable.perform {call : Call} (h : ix.Reachable) (hcall : ix.perform call = .ok ix') :
    ix'.Reachable := by
  obtain ⟨calls, past, hist⟩ := h
  exact ⟨_, _, hist.called hcall⟩

/-- Two wallets that share an extended key share payments: after the removal from one of them, the
ledger of the other still shows the spend, and the payments of the spend are gone. -/
theorem undo_spares_others_shared : ∃ ix ix' : Indexer, ix.Reachable ∧
    ix.perform (.removeUnconfirmed "spare" Sample.spend.txid) = .ok ix' ∧
    (ix'.store.ledgerEntries "savings").map (·.map (·.isSpent)) = .ok [true, false] ∧
    ix.store.paymentsFor ⟨Sample.pay.txid, 0⟩ =
      .ok (Sample.spend.paymentsFrom 7 ⟨Sample.pay.txid, 0⟩) ∧
    ix'.store.paymentsFor ⟨Sample.pay.txid, 0⟩ = .ok [] := by
  obtain ⟨ix₁, hpay, hrun⟩ := bind_eq_ok_iff.1 Sample.perform_sharing
  obtain ⟨ix, hspend, hrun⟩ := bind_eq_ok_iff.1 hrun
  obtain ⟨ix', hremove, hanswers⟩ := map_eq_ok_iff.1 hrun
  simp only [Prod.mk.injEq] at hanswers
  obtain ⟨hledger, hbefore, hafter⟩ := hanswers
  have hreach : ix.Reachable := (Sample.reachable_sharing.perform hpay).perform hspend
  have hne : "savings" ≠ "spare" := by decide
  obtain ⟨hsame, -⟩ := undo_spares_others hreach hne rfl hremove
  rw [← hsame] at hledger
  exact ⟨ix, ix', hreach, hremove, hledger, hbefore, hafter⟩

end Indexer

end WalletLedger
