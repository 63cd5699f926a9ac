import Mathlib.Data.List.Dedup
import WalletLedger.Proofs.Staging

/-!
# What a batch spends

Spends are matched against the ledger that the deposits of the batch have left. Deposits keep the spend
side of every row, so that a row is spent if its output is, unless a confirmed spend was recorded before
the batch. Its payments are then those of the spending transaction, one for each output that is staged,
however often, and whatever rows of other addresses are of the same output.

* `SpendSide.States`, `Indexer.Spends`: which rows a spend concerns, and what they say of it.
* `Store.Deposited.spend_eq`: deposits keep the spend sides.
* `Store.paid_matchSpends_perm`: the payments of a row that is spent.
* `Indexer.spends_exact`: a batch records exactly the spends of its outputs.
-/

namespace WalletLedger

/-- A spend side says what a spend says. -/
structure SpendSide.States (side : SpendSide) (sp : StagedSpend) : Prop where
  txid : side.txid = some sp.txid.bytes
  time : side.time = some sp.time
  height : side.height = sp.block.map (·.height)
  hash : side.hash = sp.block.map (·.hash.bytes)
  coinbase : side.coinbase = some sp.coinbase
  totalOut : side.totalOut = some sp.totalOut

/-- A batch spends a row: its wallet takes part, a spend of its output is staged, and no confirmed spend
was recorded before the batch. -/
structure Indexer.Spends (ix : Indexer) (batch : Batch) (header : Option BatchHeader) (r : LedgerRow)
    (sp : StagedSpend) : Prop where
  takesPart : ix.TakesPart header r.key.address.group.wallet
  staged : sp ∈ batch.spends
  txid : sp.prevOut.txid.bytes = r.key.txid
  vout : sp.prevOut.vout = r.key.vout
  unconfirmed : ∀ r₀ ∈ ix.store.ledger, r₀.key = r.key → r₀.spend.isConfirmed = false

/-- What a batch has of the outputs of a transaction, each once. -/
def Batch.payeesOf (b : Batch) (txid : Hash256) : List Payee :=
  (b.outputs.filter (·.outpoint.txid == txid)).dedup.map (·.payee)

/-- Payments of distinct slots are all kept as they are inserted. -/
theorem insertPayments_eq_append {payments ps : List PaymentRow} (h : SlotEach (payments ++ ps)) :
    ps.foldl insertPayment payments = payments ++ ps := by
  induction ps generalizing payments with
  | nil => exact (List.append_nil _).symm
  | cons p ps ih =>
    have hfree : ∀ q ∈ payments, q.source = p.source → q.index ≠ p.index := fun q hq =>
      (List.pairwise_append.1 h).2.2 q hq p List.mem_cons_self
    have hkept : payments.filter (fun q => !(q.source == p.source && q.index == p.index)) =
        payments := by
      refine List.filter_eq_self.2 fun q hq => ?_
      rw [Bool.not_eq_true', Bool.and_eq_false_iff, beq_eq_false_iff_ne, beq_eq_false_iff_ne]
      exact Decidable.not_and_iff_or_not.1 fun hslot => hfree q hq hslot.1 hslot.2
    have hinsert : insertPayment payments p = payments ++ [p] := by rw [insertPayment, hkept]
    rw [List.append_cons] at h ⊢
    rw [List.foldl_cons, hinsert]
    exact ih h

namespace Store

variable {s t m : Store} {scope : Scope} {batch : Batch} {outputs : List StagedOutput} {r : LedgerRow}

/-! ## Deposits keep spends -/

/-- Deposits keep the spend side of every row; a new row is not spent. -/
theorem Deposited.spend_eq (h : Deposited scope outputs s t) (ht : t.WellFormed) (hr : r ∈ t.ledger) :
    r.spend = s.spendAt r.key := by
  have hrow : t.row? r.key = some r := ht.row?_eq_some_iff.2 ⟨hr, rfl⟩
  by_cases hdue : ∃ d, t.IsDue scope outputs d ∧ d.key = r.key ∧ s.isConfirmed r.key = false
  · obtain ⟨d, hd, hkey, hconf⟩ := hdue
    rw [← hkey] at hconf
    obtain ⟨d', -, -, hrow'⟩ := h.recorded d hd hconf
    rw [hkey, hrow, Option.some.injEq] at hrow'
    rw [hrow']
  · have hkept : t.row? r.key = s.row? r.key := by
      refine h.kept r.key ?_
      cases hconf : s.isConfirmed r.key with
      | true => exact .inl rfl
      | false => exact .inr fun d hd hkey => hdue ⟨d, hd, hkey, hconf⟩
    rw [spendAt, ← hkept, hrow]
    rfl

theorem WellFormed.isConfirmed_spendAt (hs : s.WellFormed) {k : LedgerKey} :
    (s.spendAt k).isConfirmed = false ↔ ∀ r ∈ s.ledger, r.key = k → r.spend.isConfirmed = false := by
  unfold spendAt
  constructor
  · intro h r hr hkey
    rw [hs.row?_eq_some_iff.2 ⟨hr, hkey⟩] at h
    exact h
  · intro h
    cases hrow : s.row? k with
    | none => rfl
    | some r => exact h r (mem_of_row? hrow) (key_of_row? hrow)

/-- The spend side under a key is that of its row, if there is one. -/
theorem spendAt_cases (s : Store) (k : LedgerKey) :
    (∃ r ∈ s.ledger, r.key = k ∧ r.spend = s.spendAt k) ∨
      (∀ r ∈ s.ledger, r.key ≠ k) ∧ s.spendAt k = .unspent := by
  unfold spendAt
  cases hrow : s.row? k with
  | some r => exact .inl ⟨r, mem_of_row? hrow, key_of_row? hrow, rfl⟩
  | none => exact .inr ⟨row?_eq_none_iff.1 hrow, rfl⟩

/-! ## The rows and payments of a spend -/

/-- A row that is spent says what the one spend of its output says. -/
theorem states_spendBy (hb : batch.SpendsAgree) {sp : StagedSpend}
    (hsp : sp ∈ r.spendsIn batch.spends) : (r.spendBy batch.spends).spend.States sp := by
  have hlast : (r.spendsIn batch.spends).getLast? = some sp := by
    rw [List.getLast?_eq_some_getLast (List.ne_nil_of_mem hsp), Option.some.injEq]
    exact eq_of_mem_spendsIn hb rfl (List.getLast_mem _) hsp
  rw [LedgerRow.spendBy, hlast]
  exact ⟨rfl, rfl, rfl, rfl, rfl, rfl⟩

/-- The payments that a batch has for rows of one source: one for each output of the spending
transaction, whichever of the rows they are made for. -/
theorem mem_paymentsIn_source_iff (hb : batch.SpendsAgree) {rows : List LedgerRow} {sp : StagedSpend}
    (hr : r ∈ rows) (hsp : sp ∈ r.spendsIn batch.spends) {p : PaymentRow} :
    p ∈ (rows.filter (·.source == r.source)).flatMap (·.paymentsIn batch) ↔
      p ∈ (batch.payeesOf sp.txid).map (·.row r.source) := by
  unfold Batch.payeesOf
  rw [List.mem_flatMap, List.map_map]
  constructor
  · rintro ⟨q, hq, hp⟩
    have hsource := beq_iff_eq.1 (List.mem_filter.1 hq).2
    obtain ⟨sp', hsp', hp⟩ := List.mem_flatMap.1 hp
    obtain ⟨o, ho, rfl⟩ := List.mem_map.1 hp
    rw [eq_of_mem_spendsIn hb hsource hsp' hsp] at ho
    refine List.mem_map.2 ⟨o, List.mem_dedup.2 ho, ?_⟩
    rw [hsource]
    rfl
  · intro hp
    obtain ⟨o, ho, rfl⟩ := List.mem_map.1 hp
    refine ⟨r, List.mem_filter.2 ⟨hr, beq_self_eq_true _⟩, List.mem_flatMap.2 ⟨sp, hsp, ?_⟩⟩
    exact List.mem_map.2 ⟨o, List.mem_dedup.1 ho, rfl⟩

/-- The outputs of a transaction have a slot each. -/
theorem slotEach_payeesOf (hb : batch.OutputsAgree) (txid : Hash256) (source : PaymentSource) :
    SlotEach ((batch.payeesOf txid).map (·.row source)) := by
  unfold SlotEach Batch.payeesOf
  rw [List.map_map, List.pairwise_map]
  refine (List.nodup_dedup _).imp_of_mem fun {o o'} ho ho' hne _ hindex => hne ?_
  obtain ⟨ho, htxid⟩ := List.mem_filter.1 (List.mem_dedup.1 ho)
  obtain ⟨ho', htxid'⟩ := List.mem_filter.1 (List.mem_dedup.1 ho')
  refine hb o ho o' ho' (OutPoint.eq_of_bytes ?_ hindex)
  rw [beq_iff_eq.1 htxid, beq_iff_eq.1 htxid']

/-- Rows stay apart as their spends are recorded. -/
theorem WellFormed.nodup_afterSpends (hs : s.WellFormed) (scope : Scope) (batch : Batch)
    (p : LedgerRow → Bool) : ((s.ledger.filter p).map (s.afterSpends scope batch)).Nodup := by
  have hkeys : LedgerRow.key ∘ s.afterSpends scope batch = LedgerRow.key :=
    funext fun r => (s.key_afterSpends scope batch r).1
  refine List.Nodup.of_map LedgerRow.key ?_
  rw [List.map_map, hkeys]
  exact hs.ledger_keys.sublist (List.filter_sublist.map _)

/-- **The payments of a row that is spent**: one for each output of the spending transaction that the
batch has. -/
theorem paid_matchSpends_perm (hb : batch.Consistent) (hr : r ∈ s.ledger)
    (hspent : s.isSpentBy scope batch.spends r = true) {sp : StagedSpend}
    (hsp : sp ∈ r.spendsIn batch.spends) :
    ((s.matchSpends scope batch).2.paid r.source).Perm (batch.payeesOf sp.txid) := by
  have hmem : r ∈ s.ledger.filter (s.isSpentBy scope batch.spends) := List.mem_filter.2 ⟨hr, hspent⟩
  have hany : (s.ledger.filter (s.isSpentBy scope batch.spends)).any (·.source == r.source) = true :=
    List.any_eq_true.2 ⟨r, hmem, beq_self_eq_true _⟩
  have hslot : ∀ p ∈ ((s.ledger.filter (s.isSpentBy scope batch.spends)).filter
        (·.source == r.source)).flatMap (·.paymentsIn batch),
      ∀ q ∈ ((s.ledger.filter (s.isSpentBy scope batch.spends)).filter
        (·.source == r.source)).flatMap (·.paymentsIn batch),
      p.source = q.source → p.index = q.index → p = q := by
    intro p hp q hq
    obtain ⟨r₁, -, hp⟩ := List.mem_flatMap.1 hp
    obtain ⟨r₂, -, hq⟩ := List.mem_flatMap.1 hq
    exact eq_of_mem_paymentsIn hb hp hq
  have hinserted := insertPayments_perm hslot fun p => mem_paymentsIn_source_iff hb.spends hmem hsp
  have hself : ((batch.payeesOf sp.txid).map (·.row r.source)).foldl insertPayment [] =
      (batch.payeesOf sp.txid).map (·.row r.source) :=
    insertPayments_eq_append (slotEach_payeesOf hb.outputs sp.txid r.source)
  rw [hself] at hinserted
  have hpayees : ((batch.payeesOf sp.txid).map (·.row r.source)).map (·.payee) =
      batch.payeesOf sp.txid := by
    rw [List.map_map]
    exact map_eq_self fun y _ => rfl
  rw [paid, filter_payments_matchSpends, if_pos hany, ← hpayees]
  exact hinserted.map _

end Store

namespace Indexer

open Store

variable {ix ix' : Indexer} {batch : Batch} {header : Option BatchHeader} {r q : LedgerRow}

/-- Whether a batch spends a row depends on its key. -/
theorem Spends.congr {sp : StagedSpend} (hkey : q.key = r.key) (h : ix.Spends batch header r sp) :
    ix.Spends batch header q sp := by
  refine ⟨?_, h.staged, h.txid.trans ?_, h.vout.trans ?_, ?_⟩
  · rw [hkey]
    exact h.takesPart
  · rw [hkey]
  · rw [hkey]
  · rw [hkey]
    exact h.unconfirmed

theorem Spends.mem_spendsIn {sp : StagedSpend} (h : ix.Spends batch header r sp) :
    sp ∈ r.spendsIn batch.spends :=
  List.mem_filter.2 ⟨h.staged, by rw [h.txid, h.vout, beq_self_eq_true, beq_self_eq_true]; rfl⟩

/-- After the deposits the batch finds the rows that it spends. -/
theorem isSpentBy_iff {m : Store} (hs : ix.store.WellFormed) (hwallets : m.wallets = ix.store.wallets)
    (hspend : r.spend = ix.store.spendAt r.key) :
    m.isSpentBy (Scope.ofBatch ix.config header) batch.spends r = true ↔
      ∃ sp, ix.Spends batch header r sp := by
  unfold isSpentBy
  rw [inScope_congr hwallets, Bool.and_eq_true, Bool.and_eq_true, inScope_iff, Bool.not_eq_true',
    Bool.not_eq_true', hspend, hs.isConfirmed_spendAt, List.isEmpty_eq_false_iff_exists_mem]
  constructor
  · rintro ⟨⟨hpart, hunconfirmed⟩, sp, hsp⟩
    obtain ⟨hmem, htxid, hvout⟩ := prevOut_of_mem_spendsIn hsp
    exact ⟨sp, hpart, hmem, htxid, hvout, hunconfirmed⟩
  · rintro ⟨sp, h⟩
    exact ⟨⟨h.takesPart, h.unconfirmed⟩, sp, h.mem_spendsIn⟩

theorem isSpentBy_iff_afterSpends {m : Store} (hs : ix.store.WellFormed)
    (hwallets : m.wallets = ix.store.wallets) (hspend : r.spend = ix.store.spendAt r.key) :
    m.isSpentBy (Scope.ofBatch ix.config header) batch.spends r = true ↔
      ∃ sp, ix.Spends batch header (m.afterSpends (Scope.ofBatch ix.config header) batch r) sp := by
  have hkey := (m.key_afterSpends (Scope.ofBatch ix.config header) batch r).1
  rw [isSpentBy_iff hs hwallets hspend]
  exact exists_congr fun sp => ⟨.congr hkey, .congr hkey.symm⟩

/-- **A batch spends exactly what it should.** A row whose wallet takes part, whose output a staged spend
names and that had no confirmed spend says afterwards what the spend says, and its payments are one for
each staged output of the spending transaction. Every other row has the spend side it had, none if it is
new. The outcome counts the rows of the first kind. -/
theorem spends_exact {chain : ChainView} {outcome : BatchOutcome} (hreach : ix.Reachable)
    (hb : batch.Consistent) (h : ix.processBatch batch header chain = .ok (outcome, ix')) :
    (∀ r ∈ ix'.store.ledger, ∀ sp, ix.Spends batch header r sp →
      r.spend.States sp ∧ (ix'.store.paid r.source).Perm (batch.payeesOf sp.txid)) ∧
    (∀ r ∈ ix'.store.ledger, (∀ sp, ¬ ix.Spends batch header r sp) →
      (∃ r₀ ∈ ix.store.ledger, r₀.key = r.key ∧ r₀.spend = r.spend) ∨
        (∀ r₀ ∈ ix.store.ledger, r₀.key ≠ r.key) ∧ r.spend = .unspent) ∧
    ∃ rows : List LedgerRow, rows.Nodup ∧
      (∀ r, r ∈ rows ↔ r ∈ ix'.store.ledger ∧ ∃ sp, ix.Spends batch header r sp) ∧
      outcome.spends = rows.length := by
  have hs := hreach.wellFormed
  obtain ⟨happly, -⟩ := applyBatch_of_processBatch h
  obtain ⟨found, m, names, hrounds, hmoved, hspends⟩ := applyBatch_eq_ok_iff.1 happly
  have hm := wellFormed_rounds hs hrounds
  have hdep := deposited_of_rounds hs hs (Matched.init _) hrounds
  set scope := Scope.ofBatch ix.config header with hscope
  have hframe := frame_advance hmoved
  have hledger : ix'.store.ledger = m.ledger.map (m.afterSpends scope batch) := by
    rw [hframe]
    rfl
  have hpaid : ∀ source, ix'.store.paid source = (m.matchSpends scope batch).2.paid source := by
    intro source
    rw [hframe]
    rfl
  -- a row of the ledger between the passes is spent if and only if the batch spends it
  have hspent : ∀ q ∈ m.ledger, m.isSpentBy scope batch.spends q = true ↔
      ∃ sp, ix.Spends batch header (m.afterSpends scope batch q) sp := fun q hq =>
    isSpentBy_iff_afterSpends hs (frame_rounds hrounds).1 (hdep.spend_eq hm hq)
  refine ⟨?_, ?_, ?_⟩
  · intro r hr sp hsp
    rw [hledger] at hr
    obtain ⟨q, hq, rfl⟩ := List.mem_map.1 hr
    have hqspent := (hspent q hq).2 ⟨sp, hsp⟩
    have hmem : sp ∈ q.spendsIn batch.spends :=
      (hsp.congr (m.key_afterSpends scope batch q).1.symm).mem_spendsIn
    rw [hpaid, source_afterSpends, afterSpends, if_pos hqspent]
    exact ⟨states_spendBy hb.spends hmem, paid_matchSpends_perm hb hq hqspent hmem⟩
  · intro r hr hnone
    rw [hledger] at hr
    obtain ⟨q, hq, rfl⟩ := List.mem_map.1 hr
    have hstays : ¬ m.isSpentBy scope batch.spends q = true := by
      rw [hspent q hq]
      rintro ⟨sp, hsp⟩
      exact hnone sp hsp
    rw [afterSpends, if_neg hstays, hdep.spend_eq hm hq]
    exact ix.store.spendAt_cases q.key
  · refine ⟨(m.ledger.filter (m.isSpentBy scope batch.spends)).map (m.afterSpends scope batch),
      hm.nodup_afterSpends scope batch _, fun r => ?_, ?_⟩
    · rw [hledger, List.mem_map, List.mem_map]
      constructor
      · rintro ⟨q, hq, rfl⟩
        obtain ⟨hq, hqspent⟩ := List.mem_filter.1 hq
        exact ⟨⟨q, hq, rfl⟩, (hspent q hq).1 hqspent⟩
      · rintro ⟨⟨q, hq, rfl⟩, hsp⟩
        exact ⟨q, List.mem_filter.2 ⟨hq, (hspent q hq).2 hsp⟩, rfl⟩
    · rw [hspends, List.length_map]
      rfl

/-- An output that is received and spent in one batch. -/
theorem spends_exact_pending :
    (Sample.opened Sample.unbuffered).Reachable ∧ Sample.pending.Consistent ∧
    ∃ outcome ix', (Sample.opened Sample.unbuffered).processBatch Sample.pending none Sample.view =
        .ok (outcome, ix') ∧ ix'.store = Sample.spent ∧
      (∃ sp ∈ Sample.pending.spends, Sample.receivedSpent.spend.States sp) ∧
      (Sample.spent.paid Sample.receivedSpent.source).Perm
        (Sample.pending.payeesOf Sample.spend.txid) ∧
      ∃ rows : List LedgerRow, Sample.receivedSpent ∈ rows ∧ outcome.spends = rows.length := by
  obtain ⟨past, hist, -⟩ := Sample.history Sample.unbuffered
  have hreach : (Sample.opened Sample.unbuffered).Reachable := ⟨_, past, hist⟩
  have hpending : Sample.pending.Consistent := ⟨by decide +kernel, by decide +kernel⟩
  have hanswer : ((Sample.opened Sample.unbuffered).processBatch Sample.pending none
      Sample.view).map (·.2.store) = .ok Sample.spent := by
    decide +kernel
  obtain ⟨⟨outcome, ix'⟩, hcall, hstore⟩ := map_eq_ok_iff.1 hanswer
  obtain ⟨hrows, -, rows, -, hmem, hcount⟩ := spends_exact hreach hpending hcall
  have hstaged : ∃ sp ∈ Sample.pending.spends, sp.txid = Sample.spend.txid ∧
      sp.prevOut.txid.bytes = Sample.receivedSpent.key.txid ∧
      sp.prevOut.vout = Sample.receivedSpent.key.vout := by
    decide +kernel
  obtain ⟨sp, hsp, htxid, hout⟩ := hstaged
  have hspends : (Sample.opened Sample.unbuffered).Spends Sample.pending none Sample.receivedSpent sp :=
    ⟨inScope_iff.1 (by decide), hsp, hout.1, hout.2, fun r hr => nomatch hr⟩
  have hrow : Sample.receivedSpent ∈ ix'.store.ledger := by
    rw [hstore]
    exact List.mem_cons_self
  obtain ⟨hstates, hpaid⟩ := hrows _ hrow sp hspends
  rw [hstore, htxid] at hpaid
  exact ⟨hreach, hpending, outcome, ix', hcall, hstore, ⟨sp, hsp, hstates⟩, hpaid, rows,
    (hmem _).2 ⟨hrow, sp, hspends⟩, hcount⟩

end Indexer

end WalletLedger
