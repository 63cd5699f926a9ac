import WalletLedger.Proofs.Staging

/-!
# Taking a transaction back

A transaction that a wallet has no trace of appends rows for what it pays and fills the spend sides of
rows that were unspent. Both bear its name and no block, so that a removal by name finds exactly these
rows, and the payments of their sources are exactly those that were added.

* `Store.Unseen`: a wallet has no trace of a transaction.
* `Store.rounds_of_fresh`: deposits of new keys are appended.
* `Store.Leaves`: what a transaction leaves before its spends are matched; `Store.Leaves.ledger_drop`,
  `Store.Leaves.payments_drop`: dropping what it has appended and spent.
* `Indexer.removal_undoes_transaction`: a transaction is processed and removed.
-/

namespace WalletLedger

/-- The row of a deposit that is not spent. -/
def Deposit.row (d : Deposit) : LedgerRow := ⟨d.key, d.side, .unspent⟩

namespace Store

/-- A wallet has no trace of a transaction: no row names it, and no row that it would spend has a spend
outside a block. -/
structure Unseen (s : Store) (wallet : Int) (tx : Transaction) : Prop where
  deposits : ∀ r ∈ s.ledger, r.isOf wallet = true → r.key.txid ≠ tx.txid.bytes
  spends : ∀ r ∈ s.ledger, r.isOf wallet = true → r.spend.txid ≠ some tx.txid.bytes
  inputs : ∀ r ∈ s.ledger, r.isOf wallet = true → ∀ input ∈ tx.inputs,
    isOfOutput input.prevOut r = true → r.spend.txid = none ∨ r.spend.isConfirmed = true

variable {s t m : Store} {scope : Scope} {batch : Batch} {outputs : List StagedOutput}

/-! ## Deposits of new keys -/

/-- Deposits of new keys are appended, and nothing else changes. -/
theorem recordAll_of_fresh {ds : List Deposit} (hfresh : ∀ d ∈ ds, ∀ r ∈ s.ledger, r.key ≠ d.key)
    (hnodup : (ds.map (·.key)).Nodup) :
    recordAll ds s = (ds.length, { s with ledger := s.ledger ++ ds.map (·.row) }) := by
  induction ds generalizing s with
  | nil => simp [recordAll]
  | cons d ds ih =>
    rw [List.map_cons, List.nodup_cons] at hnodup
    have hrecord : s.record d = (true, { s with ledger := s.ledger ++ [d.row] }) := by
      rcases s.record_cases d with ⟨-, heq⟩ | ⟨row, hrow, hkey, -, -⟩ | ⟨row, hrow, hkey, -, -⟩
      · exact heq
      · exact absurd hkey (hfresh d List.mem_cons_self row hrow)
      · exact absurd hkey (hfresh d List.mem_cons_self row hrow)
    have hrest : ∀ e ∈ ds, ∀ r ∈ s.ledger ++ [d.row], r.key ≠ e.key := by
      intro e he r hr hkey
      rcases List.mem_append.1 hr with hr | hr
      · exact hfresh e (List.mem_cons_of_mem _ he) r hr hkey
      · rw [List.mem_singleton.1 hr] at hkey
        exact hnodup.1 (List.mem_map.2 ⟨e, he, hkey.symm⟩)
    rw [recordAll, hrecord]
    dsimp only
    rw [ih hrest hnodup.2, if_pos rfl, List.length_cons, Nat.add_comm, List.map_cons, List.append_assoc]
    rfl

/-- A row that no deposit of some outputs is recorded under: its key was applied, or its wallet takes no
part, or it is of another transaction. -/
def Apart (scope : Scope) (outputs : List StagedOutput) (applied : List LedgerKey) (s : Store)
    (r : LedgerRow) : Prop :=
  r.key ∈ applied ∨ s.inScope scope r.key.address.group.wallet = false ∨
    ∀ o ∈ outputs, o.outpoint.txid.bytes ≠ r.key.txid

theorem Apart.key_ne {applied : List LedgerKey} {r : LedgerRow} {d : Deposit}
    (h : Apart scope outputs applied s r) (hd : d ∈ s.newDeposits scope outputs applied) :
    r.key ≠ d.key := by
  obtain ⟨⟨o, ho, a, -, -, hscope, rfl⟩, -, hnew⟩ := isDue_of_mem_newDeposits hd
  intro hkey
  rcases h with happlied | hout | hother
  · exact hnew (hkey ▸ happlied)
  · rw [hkey] at hout
    exact Bool.false_ne_true (hout.symm.trans hscope)
  · exact hother o ho (congrArg LedgerKey.txid hkey).symm

/-- One round, if no row is in its way. -/
theorem round_of_fresh {buffer : UInt64} {pools : List AddressGroup} {applied : List LedgerKey}
    {new : List Deposit} {created : List Address} (hapart : ∀ r ∈ s.ledger, Apart scope outputs applied s r)
    (hnew : new = s.newDeposits scope outputs applied)
    (h : extendPools buffer (s.touchedPools pools new) (recordAll new s).2 = .ok (created, t)) :
    (recordAll new s).1 = new.length ∧ t.ledger = s.ledger ++ new.map (·.row) ∧
      t.payments = s.payments ∧ (∀ d ∈ new, t.IsDue scope outputs d) ∧
      ∀ r ∈ t.ledger, Apart scope outputs (applied ++ new.map (·.key)) t r := by
  have hnodup : (new.map (·.key)).Nodup := by
    rw [hnew]
    exact nodup_keys_unapplied applied _
  have hkeys : ∀ d ∈ new, ∀ r ∈ s.ledger, r.key ≠ d.key := fun d hd r hr =>
    (hapart r hr).key_ne (hnew ▸ hd)
  have hrecord := recordAll_of_fresh hkeys hnodup
  obtain ⟨hwallets, haddresses, hledger, hpayments, -⟩ := frame_round h
  rw [hrecord] at hledger hpayments
  refine ⟨by rw [hrecord], hledger, hpayments, fun d hd => ?_, fun r hr => ?_⟩
  · rw [hnew] at hd
    refine (isDue_of_mem_newDeposits hd).1.mono hwallets fun a ha => ?_
    rw [haddresses]
    exact List.mem_append_left _ ha
  · rw [hledger] at hr
    unfold Apart
    rw [inScope_congr hwallets]
    rcases List.mem_append.1 hr with hr | hr
    · exact (hapart r hr).imp_left (List.mem_append_left _)
    · obtain ⟨d, hd, rfl⟩ := List.mem_map.1 hr
      exact .inl (List.mem_append_right _ (List.mem_map_of_mem hd))

/-- **Deposits of new keys** are appended, round after round. -/
theorem rounds_of_fresh {buffer : UInt64} {pools : List AddressGroup} {applied : List LedgerKey}
    {found : DepositOutcome} (hapart : ∀ r ∈ s.ledger, Apart scope outputs applied s r)
    (h : Rounds scope buffer outputs pools applied s found t) :
    ∃ ds : List Deposit, t.ledger = s.ledger ++ ds.map (·.row) ∧ t.payments = s.payments ∧
      found.deposits = ds.length ∧ ∀ d ∈ ds, t.IsDue scope outputs d := by
  induction h with
  | stop => exact ⟨[], (List.append_nil _).symm, rfl, rfl, fun d hd => nomatch hd⟩
  | @last applied s t new hnew hextend =>
    obtain ⟨hcount, hledger, hpayments, hdue, -⟩ := round_of_fresh hapart hnew hextend
    exact ⟨new, hledger, hpayments, hcount, hdue⟩
  | @round applied s m t new created rest hnew hextend grown next ih =>
    obtain ⟨hcount, hledger, hpayments, hdue, hapart'⟩ := round_of_fresh hapart hnew hextend
    obtain ⟨ds, hledger', hpayments', hcount', hdue'⟩ := ih hapart'
    obtain ⟨hwallets, haddresses, -⟩ := frame_rounds next
    refine ⟨new ++ ds, ?_, hpayments'.trans hpayments, ?_, fun d hd => ?_⟩
    · rw [hledger', hledger, List.map_append, List.append_assoc]
    · rw [List.length_append, hcount, hcount']
    · rcases List.mem_append.1 hd with hd | hd
      · refine (hdue d hd).mono hwallets fun a ha => ?_
        rw [haddresses]
        exact List.mem_append_left _ ha
      · exact hdue' d hd

/-! ## Dropping deposits and spends -/

/-- What a transaction leaves in a wallet before its spends are matched: rows that it has appended after
those that were there, and spends of rows that have none. -/
structure Leaves (scope : Scope) (batch : Batch) (wallet : Int) (txid : Hash256)
    (old new : List LedgerRow) (m : Store) : Prop where
  ledger : m.ledger = old ++ new
  untouched : ∀ r ∈ old, isPendingDeposit wallet txid r = false ∧ isPendingSpend wallet txid r = false
  appended : ∀ r ∈ new, isPendingDeposit wallet txid r = true ∧ r.spend = .unspent
  spent : ∀ r ∈ m.ledger, m.isSpentBy scope batch.spends r = true →
    r.isOf wallet = true ∧ r.spend = .unspent
  spends : ∀ sp ∈ batch.spends, sp.txid = txid ∧ sp.block = none

section Drop

variable {wallet : Int} {txid : Hash256} {old new : List LedgerRow} {r : LedgerRow}

theorem isPendingDeposit_afterSpends (m : Store) (scope : Scope) (batch : Batch) (r : LedgerRow) :
    isPendingDeposit wallet txid (m.afterSpends scope batch r) = isPendingDeposit wallet txid r := by
  rw [isPendingDeposit, (m.key_afterSpends scope batch r).1, (m.key_afterSpends scope batch r).2]
  rfl

/-- A spent row is pending, and clearing it gives the row that it was. -/
theorem Leaves.clear_spent (h : Leaves scope batch wallet txid old new m) (hr : r ∈ m.ledger)
    (hspent : m.isSpentBy scope batch.spends r = true) :
    isPendingSpend wallet txid (m.afterSpends scope batch r) = true ∧
      { m.afterSpends scope batch r with spend := .unspent } = r := by
  obtain ⟨hwallet, hunspent⟩ := h.spent r hr hspent
  rw [afterSpends, if_pos hspent]
  constructor
  · rcases spend_spendBy r batch.spends with hkept | ⟨sp, hsp, hset⟩
    · -- a row that is spent names a transaction
      have hsome := txid_spendBy (hit_of_isSpentBy hspent).2
      rw [hkept, hunspent] at hsome
      cases hsome
    · obtain ⟨htxid, hblock⟩ := h.spends sp (List.mem_filter.1 hsp).1
      have hwallet' : r.key.address.group.wallet = wallet := beq_iff_eq.1 hwallet
      rw [isPendingSpend, hset, (r.key_spendBy _).1, SpendSide.ofSpend, SpendSide.isUnconfirmed, htxid,
        hblock, hwallet']
      simp
  · rw [r.spendBy_eq, ← hunspent]

/-- Of the rows that were there, exactly the spent ones are pending. -/
theorem Leaves.isPendingSpend_eq (h : Leaves scope batch wallet txid old new m) (hr : r ∈ old) :
    isPendingSpend wallet txid (m.afterSpends scope batch r) = m.isSpentBy scope batch.spends r := by
  by_cases hspent : m.isSpentBy scope batch.spends r = true
  · rw [(h.clear_spent (h.ledger ▸ List.mem_append_left _ hr) hspent).1, hspent]
  · rw [afterSpends, if_neg hspent, (h.untouched r hr).2, Bool.not_eq_true _ |>.mp hspent]

/-- The rows that a removal keeps are those that were there. -/
theorem Leaves.kept (h : Leaves scope batch wallet txid old new m) :
    (m.matchSpends scope batch).2.ledger.filter (fun r => !isPendingDeposit wallet txid r) =
      old.map (m.afterSpends scope batch) := by
  change (m.ledger.map (m.afterSpends scope batch)).filter _ = _
  have hold : old.filter (fun r => !isPendingDeposit wallet txid r) = old :=
    List.filter_eq_self.2 fun r hr => by rw [(h.untouched r hr).1]; rfl
  have hnew : new.filter (fun r => !isPendingDeposit wallet txid r) = [] :=
    List.filter_eq_nil_iff.2 fun r hr => by rw [(h.appended r hr).1]; exact Bool.false_ne_true
  rw [filter_map_comm fun r _ => by rw [isPendingDeposit_afterSpends], h.ledger, List.filter_append,
    hold, hnew, List.append_nil]

/-- **The ledger** is what it was. -/
theorem Leaves.ledger_drop (h : Leaves scope batch wallet txid old new m) :
    ((m.matchSpends scope batch).2.dropUnconfirmed wallet txid).2.ledger = old := by
  simp only [dropUnconfirmed]
  rw [h.kept, List.map_map]
  refine map_eq_self fun r hr => ?_
  rw [Function.comp_apply, h.isPendingSpend_eq hr]
  split
  · rename_i hspent
    exact (h.clear_spent (h.ledger ▸ List.mem_append_left _ hr) hspent).2
  · rename_i hspent
    exact if_neg hspent

/-- **The count** is that of the rows appended and of the rows spent among those that were there. -/
theorem Leaves.count_drop (h : Leaves scope batch wallet txid old new m) :
    ((m.matchSpends scope batch).2.dropUnconfirmed wallet txid).1 =
      new.length + old.countP (m.isSpentBy scope batch.spends) := by
  simp only [dropUnconfirmed]
  rw [h.kept, List.countP_map]
  change (m.ledger.map (m.afterSpends scope batch)).countP _ + _ = _
  have hdeposits : isPendingDeposit wallet txid ∘ m.afterSpends scope batch =
      isPendingDeposit wallet txid := funext fun r => isPendingDeposit_afterSpends m scope batch r
  have hold : old.countP (isPendingDeposit wallet txid) = 0 :=
    List.countP_eq_zero.2 fun r hr => by rw [(h.untouched r hr).1]; exact Bool.false_ne_true
  have hnew : new.countP (isPendingDeposit wallet txid) = new.length :=
    List.countP_eq_length.2 fun r hr => (h.appended r hr).1
  have hspends : old.countP (isPendingSpend wallet txid ∘ m.afterSpends scope batch) =
      old.countP (m.isSpentBy scope batch.spends) :=
    List.countP_congr fun r hr => by rw [Function.comp_apply, h.isPendingSpend_eq hr]
  rw [List.countP_map, hdeposits, h.ledger, List.countP_append, hold, hnew, hspends, Nat.zero_add]

/-- Rows that are pending afterwards had no spend. -/
theorem Leaves.unspent_of_pending (h : Leaves scope batch wallet txid old new m) (hr : r ∈ m.ledger)
    (hpending : (isPendingSpend wallet txid (m.afterSpends scope batch r) ||
      isPendingDeposit wallet txid (m.afterSpends scope batch r)) = true) : r.spend = .unspent := by
  rw [isPendingDeposit_afterSpends] at hpending
  have hmem := hr
  rw [h.ledger] at hmem
  rcases List.mem_append.1 hmem with hold | hnew
  · rw [(h.untouched r hold).1, Bool.or_false, h.isPendingSpend_eq hold] at hpending
    exact (h.spent r hr hpending).2
  · exact (h.appended r hnew).2

/-- **The payments** are what they were: those that were added stem from spent rows, which had none. -/
theorem Leaves.payments_drop (h : Leaves scope batch wallet txid old new m) (ha : m.Anchored)
    (ho : m.OneRowPerOutput) :
    ((m.matchSpends scope batch).2.dropUnconfirmed wallet txid).2.payments = m.payments := by
  have hfree : ∀ r ∈ m.ledger, r.spend = .unspent → ∀ p ∈ m.payments, p.source ≠ r.source :=
    fun r hr hunspent => ha.source_ne_of_unspent ho hr (by rw [hunspent]; rfl)
  have hkept : (m.payments.filter fun p =>
      !(m.ledger.filter (m.isSpentBy scope batch.spends)).any (·.source == p.source)) = m.payments := by
    refine List.filter_eq_self.2 fun p hp => ?_
    rw [Bool.not_eq_true', List.any_eq_false]
    intro r hr hsource
    obtain ⟨hr, hspent⟩ := List.mem_filter.1 hr
    exact hfree r hr (h.spent r hr hspent).2 p hp (beq_iff_eq.1 hsource).symm
  have hadded : ∀ p ∈ (m.ledger.filter (m.isSpentBy scope batch.spends)).flatMap (·.paymentsIn batch),
      ∃ r ∈ m.ledger, m.isSpentBy scope batch.spends r = true ∧ p.source = r.source := by
    intro p hp
    obtain ⟨r, hr, hp⟩ := List.mem_flatMap.1 hp
    obtain ⟨hr, hspent⟩ := List.mem_filter.1 hr
    exact ⟨r, hr, hspent, source_of_mem_paymentsIn hp⟩
  have happend : (m.matchSpends scope batch).2.payments = m.payments ++
      ((m.ledger.filter (m.isSpentBy scope batch.spends)).flatMap (·.paymentsIn batch)).foldl
        insertPayment [] := by
    simp only [matchSpends]
    rw [hkept]
    refine (congrArg (List.foldl _ · _) (List.append_nil m.payments).symm).trans ?_
    refine insertPayments_append (fun p hp q hq => ?_) []
    obtain ⟨r, hr, hspent, hsource⟩ := hadded p hp
    rw [hsource]
    exact hfree r hr (h.spent r hr hspent).2 q hq
  simp only [dropUnconfirmed, paymentsWithout]
  rw [happend, List.filter_append, List.filter_eq_self.2, List.filter_eq_nil_iff.2, List.append_nil]
  · -- a payment that was added stems from a row that is pending
    intro p hp
    obtain ⟨r, hr, hspent, hsource⟩ := hadded p ((mem_insertPayments hp).resolve_left List.not_mem_nil)
    rw [Bool.not_eq_true', Bool.not_eq_false, List.any_eq_true]
    refine ⟨m.afterSpends scope batch r, List.mem_map_of_mem hr, ?_⟩
    rw [(h.clear_spent hr hspent).1, source_afterSpends, hsource, beq_self_eq_true]
    rfl
  · intro p hp
    rw [Bool.not_eq_true', List.any_eq_false]
    intro r' hr' hpending
    obtain ⟨r, hr, rfl⟩ : ∃ r ∈ m.ledger, m.afterSpends scope batch r = r' := List.mem_map.1 hr'
    rw [Bool.and_eq_true, beq_iff_eq, source_afterSpends] at hpending
    exact hfree r hr (h.unspent_of_pending hr hpending.1) p hp hpending.2.symm

end Drop

end Store

/-! ## One transaction -/

namespace Batch

variable {tx : Transaction} {time : UInt32}

/-- The outputs of a transaction in the mempool bear its name and no block. -/
theorem of_mem_outputs_ofTransaction {o : StagedOutput} (h : o ∈ (ofTransaction tx time none).outputs) :
    o.outpoint.txid = tx.txid ∧ o.block = none := by
  obtain ⟨⟨output, vout⟩, -, rfl⟩ := List.mem_map.1 h
  exact ⟨rfl, rfl⟩

/-- The spends of a transaction in the mempool bear its name and no block, and each is an input. -/
theorem of_mem_spends_ofTransaction {sp : StagedSpend} (h : sp ∈ (ofTransaction tx time none).spends) :
    sp.txid = tx.txid ∧ sp.block = none ∧ ∃ input ∈ tx.inputs, input.prevOut = sp.prevOut := by
  simp only [ofTransaction] at h
  split at h
  · cases h
  · obtain ⟨input, hinput, rfl⟩ := List.mem_map.1 h
    exact ⟨rfl, rfl, input, hinput, rfl⟩

end Batch

namespace Store

variable {s m : Store} {tx : Transaction} {time : UInt32}

/-- **What a transaction leaves** in the only wallet that takes part, if the wallet has no trace of it. -/
theorem leaves_of_rounds {scope : Scope} {wallet : Int} {buffer : UInt64} {pools : List AddressGroup}
    {found : DepositOutcome} (hs : s.WellFormed)
    (honly : ∀ v, s.inScope scope v = true → v = wallet) (hunseen : s.Unseen wallet tx)
    (h : Rounds scope buffer (Batch.ofTransaction tx time none).outputs pools [] s found m) :
    ∃ new, Leaves scope (.ofTransaction tx time none) wallet tx.txid s.ledger new m ∧
      m.payments = s.payments ∧ found.deposits = new.length := by
  have hapart : ∀ r ∈ s.ledger, Apart scope (Batch.ofTransaction tx time none).outputs [] s r := by
    intro r hr
    by_cases hown : r.isOf wallet = true
    · refine .inr (.inr fun o ho htxid => hunseen.deposits r hr hown ?_)
      rw [← htxid, (Batch.of_mem_outputs_ofTransaction ho).1]
    · exact .inr (.inl (Bool.eq_false_iff.2 fun hin => hown (beq_iff_eq.2 (honly _ hin))))
  obtain ⟨ds, hledger, hpayments, hcount, hdue⟩ := rounds_of_fresh hapart h
  have hscope : ∀ v, m.inScope scope v = s.inScope scope v := inScope_congr (frame_rounds h).1
  have happended : ∀ r ∈ ds.map (·.row),
      isPendingDeposit wallet tx.txid r = true ∧ r.spend = .unspent := by
    intro r hr
    obtain ⟨d, hd, rfl⟩ := List.mem_map.1 hr
    obtain ⟨o, ho, a, -, -, hin, rfl⟩ := hdue d hd
    obtain ⟨htxid, hblock⟩ := Batch.of_mem_outputs_ofTransaction ho
    rw [hscope] at hin
    refine ⟨?_, rfl⟩
    simp [isPendingDeposit, Deposit.row, Deposit.ofOutput, DepositSide.isUnconfirmed, honly _ hin, htxid,
      hblock]
  refine ⟨ds.map (·.row), ⟨hledger, fun r hr => ?_, happended, fun r hr hspent => ?_, fun sp hsp => ?_⟩,
    hpayments, by rw [hcount, List.length_map]⟩
  · by_cases hown : r.isOf wallet = true
    · rw [isPendingDeposit, isPendingSpend, beq_false_of_ne (hunseen.deposits r hr hown),
        beq_false_of_ne (hunseen.spends r hr hown)]
      simp
    · have hother : (r.key.address.group.wallet == wallet) = false := Bool.eq_false_iff.2 hown
      rw [isPendingDeposit, isPendingSpend, hother]
      simp
  · have hin := inScope_of_isSpentBy hspent
    rw [hscope] at hin
    have hown : r.isOf wallet = true := beq_iff_eq.2 (honly _ hin)
    refine ⟨hown, ?_⟩
    rw [hledger] at hr
    rcases List.mem_append.1 hr with hr | hr
    · obtain ⟨hunconfirmed, hspends⟩ := hit_of_isSpentBy hspent
      obtain ⟨sp, hsp⟩ := List.isEmpty_eq_false_iff_exists_mem.1 hspends
      obtain ⟨hmem, htxid, hvout⟩ := prevOut_of_mem_spendsIn hsp
      obtain ⟨-, -, input, hinput, hprev⟩ := Batch.of_mem_spends_ofTransaction hmem
      have hout : isOfOutput input.prevOut r = true := by
        rw [isOfOutput, hprev, htxid, hvout, beq_self_eq_true, beq_self_eq_true]
        rfl
      -- a spend outside a block is ruled out, and so is one in a block
      rcases hunseen.inputs r hr hown input hinput hout with hnone | hconfirmed
      · rcases (hs.rows r hr).spend with hspend | ⟨sp, hspend⟩
        · exact hspend
        · rw [hspend] at hnone
          cases hnone
      · rw [hconfirmed] at hunconfirmed
        cases hunconfirmed
    · exact (happended r hr).2
  · obtain ⟨htxid, hblock, -⟩ := Batch.of_mem_spends_ofTransaction hsp
    exact ⟨htxid, hblock⟩

/-- A transaction that does not name itself spends none of the rows that it appends. -/
theorem Leaves.countP_appended {scope : Scope} {wallet : Int} {old new : List LedgerRow}
    (h : Leaves scope (.ofTransaction tx time none) wallet tx.txid old new m)
    (hself : ∀ input ∈ tx.inputs, input.prevOut.txid ≠ tx.txid) :
    new.countP (m.isSpentBy scope (Batch.ofTransaction tx time none).spends) = 0 := by
  refine List.countP_eq_zero.2 fun r hr hspent => ?_
  obtain ⟨sp, hsp⟩ := List.isEmpty_eq_false_iff_exists_mem.1 (hit_of_isSpentBy hspent).2
  obtain ⟨hmem, htxid, -⟩ := prevOut_of_mem_spendsIn hsp
  obtain ⟨-, -, input, hinput, hprev⟩ := Batch.of_mem_spends_ofTransaction hmem
  have hdeposit := (h.appended r hr).1
  rw [isPendingDeposit, Bool.and_eq_true, Bool.and_eq_true, beq_iff_eq, beq_iff_eq] at hdeposit
  refine hself input hinput (Hash256.ext ?_)
  rw [hprev, htxid, hdeposit.1.2]

end Store

namespace Sample

/-- The mode of the only wallet. -/
def alone : Config := { topUpBuffer := 0, mode := .singleWallet "savings" }

end Sample

namespace Indexer

open Store

variable {ix ix' : Indexer} {name : String} {w : Wallet}

/-- In the mode of a single wallet, no other takes part. -/
theorem inScope_of_singleWallet (hs : ix.store.WellFormed) (hw : ix.store.wallet name = .ok w)
    (hmode : ix.config.mode = .singleWallet name) {header : Option BatchHeader} {v : Int}
    (h : ix.store.inScope (Scope.ofBatch ix.config header) v = true) : v = w.id := by
  obtain ⟨row, hrow, rfl, hname, -⟩ := inScope_iff.1 h
  obtain ⟨row', hrow', -, hname', hid, -⟩ := row_of_wallet hw
  rw [← hid, List.inj_on_of_nodup_map hs.wallet_names hrow hrow' ((hname _ hmode).trans hname'.symm)]

/-- **A removal undoes the processing of a transaction** that the only wallet in the mode had no trace
of, as long as no output has two rows. Every row and every payment of the store is what it was, the
wallets stay, and there may be more addresses. The removal counts the rows deposited and the rows spent;
only a transaction that names itself as an input could make one row both. -/
theorem removal_undoes_transaction {calls : List Call} {past : List Indexer} {tx : Transaction}
    {time : UInt32} {outcome : BatchOutcome} (hist : History calls (ix :: past))
    (hrows : ∀ j ∈ ix' :: ix :: past, j.store.OneRowPerOutput) (hw : ix.store.wallet name = .ok w)
    (hmode : ix.config.mode = .singleWallet name) (hunseen : ix.store.Unseen w.id tx)
    (h : ix.processTransaction tx time = .ok (outcome, ix')) :
    ∃ changed ix'', ix'.removeUnconfirmed name tx.txid = .ok (changed, ix'') ∧
      ix''.store.ledger = ix.store.ledger ∧ ix''.store.payments = ix.store.payments ∧
      ix''.store.wallets = ix.store.wallets ∧ ix''.store.accounts = ix.store.accounts ∧
      (∃ created, ix''.store.addresses = ix.store.addresses ++ created) ∧
      ((∀ input ∈ tx.inputs, input.prevOut.txid ≠ tx.txid) →
        changed = outcome.deposits + outcome.spends) := by
  have hs : ix.store.WellFormed := Reachable.wellFormed ⟨_, _, hist⟩
  obtain ⟨happly, -⟩ := applyBatch_of_processBatch h
  obtain ⟨found, m, names, hrounds, hmoved, houtcome⟩ := applyBatch_eq_ok_iff.1 happly
  obtain ⟨hwallets, haddresses, haccounts⟩ := frame_rounds hrounds
  obtain ⟨new, hleaves, hpayments, hdeposits⟩ :=
    leaves_of_rounds hs (fun v => inScope_of_singleWallet hs hw hmode) hunseen hrounds
  -- without a header no wallet moves
  have hstore : ix'.store =
      (m.matchSpends (Scope.ofBatch ix.config none) (.ofTransaction tx time none)).2 :=
    (congrArg Prod.snd (Except.ok.inj hmoved)).symm
  have hkept : ix'.store.wallets = ix.store.wallets := by
    rw [hstore]
    exact hwallets
  have hm := wellFormed_rounds hs hrounds
  have hspent : Write (fun _ => True) m ix'.store := by
    rw [hstore]
    exact .spends trivial
  have hrow : m.OneRowPerOutput := oneRow_of_write hm (hrows ix' List.mem_cons_self) hspent
  have hdeposited : Writes (fun _ => True) ix.store m := writes_rounds trivial hrounds
  have hanchored : ix.store.Anchored := by
    have hall := anchored_of_history hist (fun j hj => hrows j (List.mem_cons_of_mem _ hj)) ix
      List.mem_cons_self ix.network
    rwa [storeOf_network] at hall
  have hmanchored : m.Anchored := anchored_of_writes hs hanchored hrow hdeposited
  have hread : ix'.store.wallet name = .ok w := by
    rw [wallet, walletRow?, hkept]
    exact hw
  refine ⟨_, _, bind_eq_ok_iff.2 ⟨w, hread, rfl⟩, ?_, ?_, hkept, ?_, ?_, fun hself => ?_⟩
  · rw [hstore]
    exact hleaves.ledger_drop
  · rw [hstore]
    exact (hleaves.payments_drop hmanchored hrow).trans hpayments
  · rw [hstore]
    exact haccounts
  · rw [hstore]
    exact ⟨_, haddresses⟩
  · have hspends : outcome.spends = ix.store.ledger.countP
        (m.isSpentBy (Scope.ofBatch ix.config none) (Batch.ofTransaction tx time none).spends) := by
      rw [houtcome]
      simp only [matchSpends]
      rw [← List.countP_eq_length_filter, hleaves.ledger, List.countP_append,
        hleaves.countP_appended hself, Nat.add_zero]
    have hfound : outcome.deposits = new.length := by rw [houtcome, ← hdeposits]
    rw [hspends, hfound, hstore]
    exact hleaves.count_drop

/-- A transaction that spends what was received and pays the change is processed and removed. -/
theorem removal_undoes_transaction_spent : ∃ (calls : List Call) (past : List Indexer)
    (ix ix' : Indexer) (w : Wallet) (outcome : BatchOutcome), History calls (ix :: past) ∧
    (∀ j ∈ ix' :: ix :: past, j.store.OneRowPerOutput) ∧ ix.store.wallet "savings" = .ok w ∧
    ix.config.mode = .singleWallet "savings" ∧ ix.store.Unseen w.id Sample.spend ∧
    ix.processTransaction Sample.spend 8 = .ok (outcome, ix') ∧ ix'.store = Sample.spent ∧
    ∃ ix'', ix'.removeUnconfirmed "savings" Sample.spend.txid = .ok (2, ix'') ∧
      ix''.store.ledger = Sample.paid.ledger ∧ ix''.store.payments = [] := by
  have hpay : ((Sample.opened Sample.alone).perform (.processTransaction Sample.pay 7)).map (·.store) =
      .ok Sample.paid := by
    decide +kernel
  obtain ⟨past, hist, hpast⟩ := Sample.history Sample.alone
  obtain ⟨ix₁, hist₁, hstore₁⟩ := hist.reopened (by simp) hpay Sample.alone
  have hanswer : (((Sample.opened Sample.alone).reopenedWith Sample.paid
      Sample.alone).processTransaction Sample.spend 8).map (fun answer =>
        (answer.1.deposits, answer.1.spends, answer.2.store)) = .ok (1, 1, Sample.spent) := by
    decide +kernel
  obtain ⟨⟨outcome, ix'⟩, hcall, hparts⟩ := map_eq_ok_iff.1 hanswer
  simp only [Prod.mk.injEq] at hparts
  obtain ⟨hdeposits, hspends, hstore⟩ := hparts
  have hrows : ∀ j ∈ ix' :: (Sample.opened Sample.alone).reopenedWith Sample.paid Sample.alone ::
      ix₁ :: Sample.opened Sample.alone :: past, j.store.OneRowPerOutput := by
    have hpaid : Sample.paid.OneRowPerOutput := by decide +kernel
    have hspent : Sample.spent.OneRowPerOutput := by decide +kernel
    intro j hj
    simp only [List.mem_cons] at hj
    rcases hj with rfl | rfl | rfl | rfl | hj
    · exact hstore ▸ hspent
    · exact hpaid
    · exact hstore₁ ▸ hpaid
    · exact oneRow_of_nil rfl
    · exact oneRow_of_nil (hpast j hj)
  obtain ⟨w, hw, hid⟩ : ∃ w, Sample.paid.wallet "savings" = .ok w ∧ w.id = 1 := ⟨_, rfl, rfl⟩
  have hunseen : Sample.paid.Unseen w.id Sample.spend := by
    rw [hid]
    exact ⟨by decide +kernel, by decide +kernel, by decide +kernel⟩
  obtain ⟨changed, ix'', hremove, hledger, hpayments, -, -, -, hcount⟩ :=
    removal_undoes_transaction hist₁ hrows hw rfl hunseen hcall
  have hself : ∀ input ∈ Sample.spend.inputs, input.prevOut.txid ≠ Sample.spend.txid := by
    decide +kernel
  rw [hcount hself, hdeposits, hspends] at hremove
  exact ⟨_, _, _, ix', w, outcome, hist₁, hrows, hw, rfl, hunseen, hcall, hstore, ix'', hremove, hledger,
    hpayments⟩

end Indexer

end WalletLedger
