import WalletLedger.Proofs.Share

/-!
# Applying a batch again

A batch with a header leaves no wallet at its parent, so that it finds none if it comes again. A batch
without one finds the rows that it has recorded, and writes them as they are: an unconfirmed deposit is
replaced by itself, an unconfirmed spend is recorded again, and its payments with it.

* `Store.applyBatch_of_not_covers`: a batch to which no wallet belongs.
* `Store.rounds_again`: deposits that are recorded.
* `Store.matchSpends_again`: spends that are recorded.
* `Indexer.reapplied_batch_changes_nothing`: the same call twice.
-/

namespace WalletLedger

namespace LedgerRow

/-- The spends of a row depend on its output alone. -/
theorem spendsIn_spendBy (r : LedgerRow) (spends spends' : List StagedSpend) :
    (r.spendBy spends).spendsIn spends' = r.spendsIn spends' := by
  unfold spendsIn
  rw [(r.key_spendBy spends).1]

theorem source_spendBy (r : LedgerRow) (spends : List StagedSpend) :
    (r.spendBy spends).source = r.source := by
  unfold source
  rw [(r.key_spendBy spends).1, (r.key_spendBy spends).2]

/-- Spending twice is spending once. -/
theorem spendBy_spendBy (r : LedgerRow) (spends : List StagedSpend) :
    (r.spendBy spends).spendBy spends = r.spendBy spends := by
  have hlast : ((r.spendBy spends).spendsIn spends).getLast? = (r.spendsIn spends).getLast? := by
    rw [spendsIn_spendBy]
  cases hcase : (r.spendsIn spends).getLast? with
  | none =>
    rw [hcase] at hlast
    rw [spendBy, hlast]
  | some sp =>
    rw [hcase] at hlast
    have honce : r.spendBy spends = { r with spend := .ofSpend sp } := by rw [spendBy, hcase]
    rw [spendBy, hlast, honce]

/-- Rows of one output are spent by the same transaction. -/
theorem spend_spendBy_congr {r q : LedgerRow} {spends : List StagedSpend} (hsource : r.source = q.source)
    (hspent : (r.spendsIn spends).isEmpty = false) :
    (r.spendBy spends).spend = (q.spendBy spends).spend := by
  have hsame : q.spendsIn spends = r.spendsIn spends := by
    simp only [source, PaymentSource.mk.injEq] at hsource
    unfold spendsIn
    rw [hsource.2.1, hsource.2.2]
  unfold spendBy
  rw [hsame]
  cases hlast : (r.spendsIn spends).getLast? with
  | none =>
    rw [List.getLast?_eq_none_iff.1 hlast] at hspent
    cases hspent
  | some sp => rfl

theorem paymentsIn_spendBy (r : LedgerRow) (spends : List StagedSpend) (batch : Batch) :
    (r.spendBy spends).paymentsIn batch = r.paymentsIn batch := by
  unfold paymentsIn
  rw [spendsIn_spendBy, source_spendBy]

end LedgerRow

namespace Store

variable {s t : Store} {scope : Scope} {batch : Batch}

/-! ## A batch for no wallet -/

/-- A batch to which no wallet belongs does nothing. -/
theorem applyBatch_of_not_covers {config : Config} {header : Option BatchHeader}
    (hnone : ∀ row ∈ s.wallets, (Scope.ofBatch config header).covers row = false)
    (batch : Batch) (chain : ChainView) :
    s.applyBatch config batch header chain = .ok (⟨0, 0, 1, [], []⟩, s) := by
  have hscope : ∀ v, s.inScope (Scope.ofBatch config header) v = false := fun v =>
    inScope_eq_false_iff.2 fun row hrow _ => hnone row hrow
  have hnew : s.newDeposits (Scope.ofBatch config header) batch.outputs [] = [] := by
    refine List.eq_nil_iff_forall_not_mem.2 fun d hd => ?_
    obtain ⟨⟨o, -, a, -, -, hdue, -⟩, -, -⟩ := isDue_of_mem_newDeposits hd
    rw [hscope] at hdue
    cases hdue
  have hspends : s.matchSpends (Scope.ofBatch config header) batch = (0, s) := by
    have hspent : s.ledger.filter (s.isSpentBy (Scope.ofBatch config header) batch.spends) = [] := by
      refine List.filter_eq_nil_iff.2 fun r _ => ?_
      rw [isSpentBy, hscope, Bool.false_and, Bool.false_and]
      exact Bool.false_ne_true
    have hledger : (s.ledger.map fun r =>
        if s.isSpentBy (Scope.ofBatch config header) batch.spends r then r.spendBy batch.spends
        else r) = s.ledger :=
      map_eq_self fun r hr => if_neg (List.filter_eq_nil_iff.1 hspent r hr)
    have hpayments : (s.payments.filter fun p => !([] : List LedgerRow).any (·.source == p.source)) =
        s.payments := List.filter_eq_self.2 fun _ _ => rfl
    unfold matchSpends
    dsimp only
    rw [hspent, hledger, hpayments]
    rfl
  refine applyBatch_eq_ok_iff.2 ⟨⟨0, 1, []⟩, s, [], .stop hnew, ?_, ?_⟩
  · rw [hspends]
    cases header with
    | none => rfl
    | some header =>
      unfold advance
      exact if_pos (List.filter_eq_nil_iff.2 fun row hrow => by
        rw [hnone row hrow]
        exact Bool.false_ne_true)
  · rw [hspends]
    rfl

/-! ## Deposits that are recorded -/

/-- An unconfirmed deposit that is recorded already is replaced by itself. -/
theorem record_again (hs : s.WellFormed) {d : Deposit} {r : LedgerRow} (hr : r ∈ s.ledger)
    (hkey : r.key = d.key) (hside : r.deposit = d.side)
    (hunconfirmed : r.deposit.isUnconfirmed = true) : s.record d = (true, s) := by
  have hrow : ∀ q ∈ s.ledger, q.key = d.key → q = r := fun q hq hk =>
    hs.eq_of_key hq hr (hk.trans hkey.symm)
  rcases s.record_cases d with ⟨hfresh, -⟩ | ⟨q, hq, hk, -, heq⟩ | ⟨q, hq, hk, hstays, -⟩
  · exact absurd hkey (hfresh r hr)
  · have hledger : (s.ledger.map fun q => if q.key = d.key then { q with deposit := d.side } else q) =
        s.ledger := by
      refine map_eq_self fun q hq => ?_
      by_cases hk : q.key = d.key
      · rw [if_pos hk, hrow q hq hk, ← hside]
      · exact if_neg hk
    have hpayments : retime s.payments q.source d.side.time = s.payments := by
      rw [hrow q hq hk, ← hside]
      exact if_pos rfl
    rw [heq, hledger, hpayments]
  · rw [hrow q hq hk, hunconfirmed] at hstays
    cases hstays

theorem recordAll_again {ds : List Deposit} (h : ∀ d ∈ ds, s.record d = (true, s)) :
    recordAll ds s = (ds.length, s) := by
  induction ds with
  | nil => rfl
  | cons d ds ih =>
    rw [recordAll, h d List.mem_cons_self]
    dsimp only
    rw [ih fun e he => h e (List.mem_cons_of_mem _ he), if_pos rfl, List.length_cons, Nat.add_comm]

/-- **Deposits that are recorded** take one round, which changes nothing. -/
theorem rounds_again (hs : s.WellFormed) {buffer : UInt64} {pools : List AddressGroup}
    {outputs : List StagedOutput} (hrows : ∀ d ∈ s.newDeposits scope outputs [],
      ∃ r ∈ s.ledger, r.key = d.key ∧ r.deposit = d.side) :
    ∃ count, Rounds scope buffer outputs pools [] s ⟨count, 1, []⟩ s := by
  have hrecord : ∀ d ∈ s.newDeposits scope outputs [], s.record d = (true, s) := by
    intro d hd
    obtain ⟨r, hr, hkey, hside⟩ := hrows d hd
    obtain ⟨-, hconf, -⟩ := isDue_of_mem_newDeposits hd
    rw [hs.isConfirmed_eq, hs.row?_eq_some_iff.2 ⟨hr, hkey⟩, Option.any_some] at hconf
    refine record_again hs hr hkey hside ?_
    rw [(hs.rows r hr).isUnconfirmed_eq, hconf]
    rfl
  -- the addresses have rows, so no pool is touched
  have hquiet : s.touchedPools pools (s.newDeposits scope outputs []) = [] := by
    refine List.filter_eq_nil_iff.2 fun g _ htouched => ?_
    obtain ⟨d, hd, hfirst⟩ := List.any_eq_true.1 htouched
    obtain ⟨r, hr, hkey, -⟩ := hrows d hd
    have hused : s.isUsed d.key.address = true :=
      List.any_eq_true.2 ⟨r, hr, beq_iff_eq.2 (congrArg LedgerKey.address hkey)⟩
    rw [hused, Bool.and_comm] at hfirst
    cases hfirst
  refine ⟨_, .last rfl ?_⟩
  rw [hquiet, recordAll_again hrecord]
  rfl

/-! ## Spends that are recorded -/

/-- A row after the spends of a batch. -/
def afterSpends (s : Store) (scope : Scope) (batch : Batch) (r : LedgerRow) : LedgerRow :=
  if s.isSpentBy scope batch.spends r then r.spendBy batch.spends else r

theorem key_afterSpends (s : Store) (scope : Scope) (batch : Batch) (r : LedgerRow) :
    (s.afterSpends scope batch r).key = r.key ∧ (s.afterSpends scope batch r).deposit = r.deposit := by
  unfold afterSpends
  split
  · exact r.key_spendBy _
  · exact ⟨rfl, rfl⟩

theorem source_afterSpends (s : Store) (scope : Scope) (batch : Batch) (r : LedgerRow) :
    (s.afterSpends scope batch r).source = r.source := by
  rw [LedgerRow.source, LedgerRow.source, (s.key_afterSpends scope batch r).1,
    (s.key_afterSpends scope batch r).2]

theorem paymentsIn_afterSpends (s : Store) (scope : Scope) (batch : Batch) (r : LedgerRow) :
    (s.afterSpends scope batch r).paymentsIn batch = r.paymentsIn batch := by
  unfold afterSpends
  split
  · exact r.paymentsIn_spendBy _ _
  · rfl

/-- Whether a row is spent depends on the row and the wallets. -/
theorem isSpentBy_congr (hwallets : t.wallets = s.wallets) (spends : List StagedSpend)
    (r : LedgerRow) : t.isSpentBy scope spends r = s.isSpentBy scope spends r := by
  unfold isSpentBy
  rw [inScope_congr hwallets]

/-- What is spent again was spent before. -/
theorem isSpentBy_of_afterSpends {r : LedgerRow}
    (h : s.isSpentBy scope batch.spends (s.afterSpends scope batch r) = true) :
    s.isSpentBy scope batch.spends r = true := by
  by_contra hnot
  rw [afterSpends, if_neg hnot] at h
  exact hnot h

/-- If a row is spent again, so are all rows of its source that were spent: they were spent by the same
transaction, which is not in a block. -/
theorem isSpentBy_afterSpends {r q : LedgerRow} (hsource : q.source = r.source)
    (h : s.isSpentBy scope batch.spends (s.afterSpends scope batch r) = true) :
    s.isSpentBy scope batch.spends (s.afterSpends scope batch q) =
      s.isSpentBy scope batch.spends q := by
  refine Bool.eq_iff_iff.2 ⟨isSpentBy_of_afterSpends, fun hq => ?_⟩
  have hr := isSpentBy_of_afterSpends h
  have hunconfirmed := (hit_of_isSpentBy h).1
  rw [afterSpends, if_pos hr] at hunconfirmed
  rw [afterSpends, if_pos hq]
  have hspend := LedgerRow.spend_spendBy_congr hsource (hit_of_isSpentBy hq).2
  rw [isSpentBy, (q.key_spendBy _).1, inScope_of_isSpentBy hq, hspend, hunconfirmed, q.spendsIn_spendBy,
    (hit_of_isSpentBy hq).2]
  rfl

/-- **Spends that are recorded** change no row. -/
theorem ledger_matchSpends_again (s : Store) (scope : Scope) (batch : Batch) :
    ((s.matchSpends scope batch).2.matchSpends scope batch).2.ledger =
      (s.matchSpends scope batch).2.ledger := by
  refine map_eq_self fun r hr => ?_
  obtain ⟨q, -, rfl⟩ := List.mem_map.1 hr
  rw [isSpentBy_congr (s := s) rfl]
  change (if s.isSpentBy scope batch.spends (s.afterSpends scope batch q) = true then
    (s.afterSpends scope batch q).spendBy batch.spends else _) = s.afterSpends scope batch q
  split
  · rename_i hspent
    rw [afterSpends, if_pos (isSpentBy_of_afterSpends hspent)]
    exact q.spendBy_spendBy _
  · rfl

/-- The rows that are spent again are some of those that were spent. -/
theorem filter_spent_again (s : Store) (scope : Scope) (batch : Batch) :
    (s.matchSpends scope batch).2.ledger.filter
        ((s.matchSpends scope batch).2.isSpentBy scope batch.spends) =
      (s.ledger.filter fun r => s.isSpentBy scope batch.spends (s.afterSpends scope batch r)).map
        (s.afterSpends scope batch) := by
  change (s.ledger.map (s.afterSpends scope batch)).filter _ = _
  rw [List.filter_map]
  refine congrArg (List.map _) (List.filter_congr fun r _ => ?_)
  exact isSpentBy_congr rfl _ _

/-- **Spends that are recorded** make the payments that are there. -/
theorem payments_matchSpends_again (s : Store) (scope : Scope) (batch : Batch) :
    ((s.matchSpends scope batch).2.matchSpends scope batch).2.payments.Perm
      (s.matchSpends scope batch).2.payments := by
  refine perm_of_filter_eq (f := PaymentRow.source) fun source => ?_
  rw [filter_payments_matchSpends (s.matchSpends scope batch).2, filter_spent_again]
  split
  · rename_i hagain
    obtain ⟨r', hr', hsource⟩ := List.any_eq_true.1 hagain
    obtain ⟨r, hr, rfl⟩ := List.mem_map.1 hr'
    obtain ⟨hmem, hspent⟩ := List.mem_filter.1 hr
    rw [source_afterSpends, beq_iff_eq] at hsource
    subst hsource
    -- all rows of the source are spent both times, so the payments are the same
    have hrows : (((s.ledger.filter fun r =>
        s.isSpentBy scope batch.spends (s.afterSpends scope batch r)).map
          (s.afterSpends scope batch)).filter (·.source == r.source)) =
        ((s.ledger.filter (s.isSpentBy scope batch.spends)).filter (·.source == r.source)).map
          (s.afterSpends scope batch) := by
      rw [filter_map_comm fun q _ => by rw [source_afterSpends], List.filter_filter,
        List.filter_filter]
      refine congrArg (List.map _) (List.filter_congr fun q _ => ?_)
      cases hq : q.source == r.source with
      | false => rw [Bool.false_and, Bool.false_and]
      | true => rw [isSpentBy_afterSpends (beq_iff_eq.1 hq) hspent]
    have hany : (s.ledger.filter (s.isSpentBy scope batch.spends)).any (·.source == r.source) = true :=
      List.any_eq_true.2 ⟨r, List.mem_filter.2 ⟨hmem, isSpentBy_of_afterSpends hspent⟩,
        beq_self_eq_true r.source⟩
    rw [filter_payments_matchSpends s, if_pos hany, hrows, List.flatMap_map]
    simp only [paymentsIn_afterSpends]
  · rfl

/-! ## The batch again -/

/-- After a batch with a header no wallet is in its scope, unless the tip is the parent. -/
theorem not_covers_of_moves {header : BatchHeader} {chain : ChainView} {rows rows' : List WalletRow}
    (hparent : scope.parent = some header.parent) (hne : header.tip.hash ≠ header.parent)
    (h : scope.Moves header.tip chain rows rows') : ∀ row ∈ rows', scope.covers row = false := by
  obtain ⟨hashes, -, rfl⟩ := h
  intro row' hrow'
  obtain ⟨row, -, rfl⟩ := List.mem_map.1 hrow'
  by_cases hcovers : scope.covers row = true
  · rw [Scope.move_of_covers hcovers]
    have hmoved : (header.parent.bytes == header.tip.hash.bytes) = false := by
      rw [beq_eq_false_iff_ne]
      exact fun heq => hne (Hash256.ext heq.symm)
    rw [Scope.covers, hparent, Option.all_some, WalletRow.withTip, hmoved, Bool.and_false]
  · rw [Scope.move_of_not hcovers]
    exact Bool.eq_false_iff.2 hcovers

/-- A batch without a header finds its deposits recorded. -/
theorem rows_of_applyBatch_none (hs : s.WellFormed) (hb : batch.OutputsAgree) {config : Config}
    {chain : ChainView} {outcome : BatchOutcome}
    (h : s.applyBatch config batch none chain = .ok (outcome, t)) :
    ∀ d ∈ t.newDeposits (Scope.ofBatch config none) batch.outputs [],
      ∃ r ∈ t.ledger, r.key = d.key ∧ r.deposit = d.side := by
  intro d hd
  obtain ⟨found, m, names, hrounds, hmoved⟩ := parts_of_applyBatch h
  cases hmoved
  have hm := wellFormed_rounds hs hrounds
  have ht : (m.matchSpends (Scope.ofBatch config none) batch).2.WellFormed := wellFormed_matchSpends hm
  obtain ⟨hdue, hconf, -⟩ := isDue_of_mem_newDeposits hd
  have hdep := deposited_of_rounds hs hs (Matched.init _) hrounds
  have hdue' : m.IsDue (Scope.ofBatch config none) batch.outputs d := hdue
  obtain ⟨r, hr, hkey, hside⟩ := hdep.row_of_isDue hs hb hdue'
  obtain ⟨r', hr', hkey', hside'⟩ :=
    exists_of_deposits_eq (m.key_matchSpends (Scope.ofBatch config none) batch) hr
  refine ⟨r', hr', hkey'.trans hkey, hside'.trans ?_⟩
  rcases hside with ⟨r₀, -, -, hconf₀, hsame⟩ | ⟨-, hside⟩
  · -- a confirmed row would not be written again
    rw [ht.isConfirmed_eq, ht.row?_eq_some_iff.2 ⟨hr', hkey'.trans hkey⟩, Option.any_some, hside',
      hsame, hconf₀] at hconf
    cases hconf
  · exact hside

/-- **A batch without a header** writes what is there, if it comes again. -/
theorem applyBatch_none_again (hs : s.WellFormed) (hb : batch.OutputsAgree) {config : Config}
    {chain : ChainView} {outcome : BatchOutcome}
    (h : s.applyBatch config batch none chain = .ok (outcome, t)) : ∃ outcome' payments,
      t.applyBatch config batch none chain = .ok (outcome', { t with payments := payments }) ∧
      outcome'.newScripts = [] ∧ payments.Perm t.payments := by
  have ht := wellFormed_applyBatch hs h
  obtain ⟨count, hrounds⟩ : ∃ count, Rounds (Scope.ofBatch config none) config.topUpBuffer
      batch.outputs t.pools [] t ⟨count, 1, []⟩ t := rounds_again ht (rows_of_applyBatch_none hs hb h)
  obtain ⟨found, m, names, -, hmoved⟩ := parts_of_applyBatch h
  have hstore : t = (m.matchSpends (Scope.ofBatch config none) batch).2 := by
    cases hmoved
    rfl
  have hspent : (t.matchSpends (Scope.ofBatch config none) batch).2 = { t with
      payments := (t.matchSpends (Scope.ofBatch config none) batch).2.payments } := by
    have hledger : (t.matchSpends (Scope.ofBatch config none) batch).2.ledger = t.ledger := by
      rw [hstore]
      exact ledger_matchSpends_again m _ batch
    calc (t.matchSpends (Scope.ofBatch config none) batch).2
        = { t with
            ledger := (t.matchSpends (Scope.ofBatch config none) batch).2.ledger
            payments := (t.matchSpends (Scope.ofBatch config none) batch).2.payments } := rfl
      _ = _ := by rw [hledger]
  have hmoves : (t.matchSpends (Scope.ofBatch config none) batch).2.advance
      (Scope.ofBatch config none) none chain = .ok ([], { t with
        payments := (t.matchSpends (Scope.ofBatch config none) batch).2.payments }) :=
    congrArg (fun u => Except.ok ([], u)) hspent
  refine ⟨_, _, applyBatch_eq_ok_iff.2 ⟨_, t, [], hrounds, hmoves, rfl⟩, rfl, ?_⟩
  rw [hstore]
  exact payments_matchSpends_again m _ batch

end Store

namespace Sample

/-- Both transactions as one batch, seen in the mempool. -/
def pending : Batch :=
  .concat [.ofTransaction pay 7 none, .ofTransaction spend 8 none]

end Sample

namespace Indexer

open Store

variable {ix ix' : Indexer} {batch : Batch} {header : Option BatchHeader} {chain : ChainView}
variable {outcome : BatchOutcome}

/-- **Applying a batch again changes nothing.** It succeeds, and with a header it finds no wallet at the
parent any more. Without one it writes rows that are there, and the payments that are there. -/
theorem reapplied_batch_changes_nothing (hreach : ix.Reachable) (hb : batch.Consistent)
    (hheader : ∀ h ∈ header, h.tip.hash ≠ h.parent)
    (h : ix.processBatch batch header chain = .ok (outcome, ix')) :
    ∃ outcome' ix'', ix'.processBatch batch header chain = .ok (outcome', ix'') ∧
      outcome'.newScripts = [] ∧
      ix''.store.wallets = ix'.store.wallets ∧ ix''.store.accounts = ix'.store.accounts ∧
      ix''.store.addresses = ix'.store.addresses ∧ ix''.store.ledger = ix'.store.ledger ∧
      ix''.store.payments.Perm ix'.store.payments ∧
      (header.isSome = true → outcome'.deposits = 0 ∧ outcome'.spends = 0 ∧
        outcome'.advanced = []) := by
  have hs := hreach.wellFormed
  obtain ⟨happly, hconfig⟩ := applyBatch_of_processBatch h
  cases header with
  | some header =>
    have hne : header.tip.hash ≠ header.parent := hheader header rfl
    have hnone := not_covers_of_moves rfl hne (moves_applyBatch hs happly)
    have hagain := applyBatch_of_not_covers hnone batch chain
    rw [← hconfig] at hagain
    refine ⟨_, _, bind_eq_ok_iff.2 ⟨_, hagain, rfl⟩, rfl, rfl, rfl, rfl, rfl, .refl _, ?_⟩
    exact fun _ => ⟨rfl, rfl, rfl⟩
  | none =>
    obtain ⟨outcome', payments, hagain, hscripts, hpayments⟩ :=
      applyBatch_none_again hs hb.outputs happly
    rw [← hconfig] at hagain
    refine ⟨outcome', _, bind_eq_ok_iff.2 ⟨_, hagain, rfl⟩, hscripts, rfl, rfl, rfl, rfl, hpayments,
      fun hsome => ?_⟩
    cases hsome

/-- An unconfirmed deposit with its spend is recorded again as it is, and a block finds no wallet the
second time. -/
theorem reapplied_batch_changes_nothing_spent :
    (Sample.opened Sample.unbuffered).Reachable ∧ Sample.pending.Consistent ∧
    (∃ outcome ix' outcome' ix'', (Sample.opened Sample.unbuffered).processBatch Sample.pending none
        Sample.view = .ok (outcome, ix') ∧ outcome.deposits = 2 ∧ outcome.spends = 1 ∧
      ix'.processBatch Sample.pending none Sample.view = .ok (outcome', ix'') ∧
      ix''.store.ledger = ix'.store.ledger ∧ ix''.store.payments.Perm ix'.store.payments) ∧
    ∃ outcome ix' outcome' ix'', (Sample.opened Sample.unbuffered).processBatch
        (Batch.ofBlock Sample.paying) (some ⟨Hash256.zero, Sample.paying.ref⟩) Sample.view =
          .ok (outcome, ix') ∧ outcome.deposits = 1 ∧
      ix'.processBatch (Batch.ofBlock Sample.paying) (some ⟨Hash256.zero, Sample.paying.ref⟩)
        Sample.view = .ok (outcome', ix'') ∧
      ix''.store.ledger = ix'.store.ledger ∧ outcome'.deposits = 0 := by
  obtain ⟨past, hist, -⟩ := Sample.history Sample.unbuffered
  have hreach : (Sample.opened Sample.unbuffered).Reachable := ⟨_, past, hist⟩
  have hpending : Sample.pending.Consistent := ⟨by decide +kernel, by decide +kernel⟩
  refine ⟨hreach, hpending, ?_, ?_⟩
  · have hanswer : ((Sample.opened Sample.unbuffered).processBatch Sample.pending none
        Sample.view).map (fun answer => (answer.1.deposits, answer.1.spends)) = .ok (2, 1) := by
      decide +kernel
    obtain ⟨⟨outcome, ix'⟩, hcall, hcounts⟩ := map_eq_ok_iff.1 hanswer
    obtain ⟨hdeposits, hspends⟩ := Prod.mk.inj hcounts
    have hnone : ∀ h ∈ (none : Option BatchHeader), h.tip.hash ≠ h.parent := fun h hh => by cases hh
    obtain ⟨outcome', ix'', hagain, -, -, -, -, hledger, hpayments, -⟩ :=
      reapplied_batch_changes_nothing hreach hpending hnone hcall
    exact ⟨outcome, ix', outcome', ix'', hcall, hdeposits, hspends, hagain, hledger, hpayments⟩
  · have hanswer : ((Sample.opened Sample.unbuffered).processBatch (Batch.ofBlock Sample.paying)
        (some ⟨Hash256.zero, Sample.paying.ref⟩) Sample.view).map (·.1.deposits) = .ok 1 := by
      decide +kernel
    obtain ⟨⟨outcome, ix'⟩, hcall, hdeposits⟩ := map_eq_ok_iff.1 hanswer
    have hconsistent : (Batch.ofBlock Sample.paying).Consistent :=
      ⟨by decide +kernel, by decide +kernel⟩
    have hheader : ∀ h ∈ some (⟨Hash256.zero, Sample.paying.ref⟩ : BatchHeader),
        h.tip.hash ≠ h.parent := by
      rintro h hh
      cases hh
      decide +kernel
    obtain ⟨outcome', ix'', hagain, -, -, -, -, hledger, -, hcounts⟩ :=
      reapplied_batch_changes_nothing hreach hconsistent hheader hcall
    exact ⟨outcome, ix', outcome', ix'', hcall, hdeposits, hagain, hledger, (hcounts rfl).1⟩

end Indexer

end WalletLedger
