import WalletLedger.Proofs.Settling

/-!
# Confirmation erases mempool history

Transactions that are seen before their block leave rows, spends and payments behind, and may extend
pools early. The block writes over all of it: what comes first is absorbed by what comes later.

* `Batch.Foretells`: what is seen early and comes again with the batch.
* `Store.Settles.absorb`: a batch settles a store as if nothing had been seen early.
* `Indexer.confirmation_erases_mempool`: the runs with and without the mempool end alike.
-/

namespace WalletLedger

/-- A batch is seen early, unconfirmed, and all of it comes again with a later one. -/
structure Batch.Foretells (early batch : Batch) : Prop where
  unconfirmed : early.Unconfirmed
  outputs : Covers batch.outputs early.outputs
  spends : ∀ sp ∈ early.spends, ∃ sp' ∈ batch.spends, sp'.prevOut = sp.prevOut

/-- A transaction in the mempool foretells its block. -/
theorem Batch.foretells_ofBlock {placed : PlacedBlock} {tx : Transaction}
    (htx : tx ∈ placed.block.transactions) (time : UInt32) :
    (ofTransaction tx time none).Foretells (ofBlock placed) := by
  have hmem : ofTransaction tx placed.block.time (some placed.ref) ∈
      placed.block.transactions.map fun tx =>
        ofTransaction tx placed.block.time (some placed.ref) := List.mem_map_of_mem htx
  refine ⟨⟨fun o ho => ?_, fun sp hsp => ?_⟩, fun o ho => ?_, fun sp hsp => ?_⟩
  · obtain ⟨⟨output, vout⟩, -, rfl⟩ := List.mem_map.1 ho
    rfl
  · simp only [ofTransaction] at hsp
    split at hsp
    · cases hsp
    · obtain ⟨input, -, rfl⟩ := List.mem_map.1 hsp
      rfl
  · obtain ⟨⟨output, vout⟩, houtput, rfl⟩ := List.mem_map.1 ho
    refine ⟨_, List.mem_flatMap.2 ⟨_, hmem, List.mem_map.2 ⟨(output, vout), houtput, rfl⟩⟩, ?_⟩
    exact ⟨rfl, rfl, rfl⟩
  · simp only [ofTransaction] at hsp
    split at hsp
    · cases hsp
    · rename_i hcoinbase
      obtain ⟨input, hinput, rfl⟩ := List.mem_map.1 hsp
      refine ⟨⟨tx.txid, placed.block.time, some placed.ref, tx.isCoinbase, tx.totalOut,
        input.prevOut⟩, List.mem_flatMap.2 ⟨_, hmem, ?_⟩, rfl⟩
      simp only [ofTransaction, if_neg hcoinbase]
      exact List.mem_map.2 ⟨input, hinput, rfl⟩

/-! ## One holding -/

namespace Holding

variable {part : Int → Bool} {early batch : Batch} {h : Holding}

/-- The holding with another deposit side. -/
def withDeposit (h : Holding) (side : DepositSide) : Holding :=
  { h with row := { h.row with deposit := side } }

theorem restage_eq (h : Holding) (side : DepositSide) :
    h.restage side = h.withDeposit (if h.row.deposit.isConfirmed then h.row.deposit else side) := by
  unfold restage withDeposit
  split <;> rfl

theorem deposit_spendIn (part : Int → Bool) (batch : Batch) (h : Holding) :
    (h.spendIn part batch).row.deposit = h.row.deposit := by
  unfold spendIn
  split
  · exact (h.row.key_spendBy _).2
  · rfl

/-- A spend of the batch takes the place of any other. -/
theorem spent_congr {h' : Holding} {spend : SpendSide} (hrow : h'.row = { h.row with spend := spend })
    (hne : h.row.spendsIn batch.spends ≠ []) : h'.spent batch = h.spent batch := by
  have hlast : (h.row.spendsIn batch.spends).getLast? ≠ none := by
    rw [ne_eq, List.getLast?_eq_none_iff]
    exact hne
  have hspends : h'.row.spendsIn batch.spends = h.row.spendsIn batch.spends := by
    rw [hrow]
    rfl
  have hpayments : h'.row.paymentsIn batch = h.row.paymentsIn batch := by
    rw [hrow]
    rfl
  have hspent : h'.row.spendBy batch.spends = h.row.spendBy batch.spends := by
    unfold LedgerRow.spendBy
    rw [hspends]
    split
    · rw [hrow]
    · rename_i hnone
      exact absurd hnone hlast
  rw [spent, spent, hspent, hpayments]

/-- What a spend that was seen early left behind gives way to that of the batch. -/
theorem spendIn_absorb (hearly : early.Foretells batch) (part : Int → Bool) (h : Holding)
    (side : DepositSide) :
    ((h.spendIn part early).withDeposit side).spendIn part batch =
      (h.withDeposit side).spendIn part batch := by
  by_cases hhit : h.isSpentIn part early = true
  · obtain ⟨hpart, hunspent, hne⟩ := isSpentIn_iff.1 hhit
    -- the batch spends the row too
    have hagain : h.row.spendsIn batch.spends ≠ [] := by
      obtain ⟨sp, hsp⟩ := List.exists_mem_of_ne_nil _ hne
      obtain ⟨hmem, hout⟩ := List.mem_filter.1 hsp
      obtain ⟨sp', hmem', hprev⟩ := hearly.spends sp hmem
      exact List.ne_nil_of_mem (List.mem_filter.2 ⟨hmem', by rw [hprev]; exact hout⟩)
    -- and the spend that was seen early is unconfirmed
    have hspend : (h.row.spendBy early.spends).spend.isConfirmed = false := by
      rcases Store.spend_spendBy h.row early.spends with hkept | ⟨sp, hsp, hset⟩
      · rw [hkept, hunspent]
      · rw [hset, SpendSide.isConfirmed, SpendSide.ofSpend,
          hearly.unconfirmed.2 sp (List.mem_filter.1 hsp).1]
        rfl
    have hrow : ((h.spent early).withDeposit side).row =
        { (h.withDeposit side).row with spend := (h.row.spendBy early.spends).spend } := by
      rw [withDeposit, spent, h.row.spendBy_eq]
      rfl
    have hfirst : ((h.spent early).withDeposit side).isSpentIn part batch = true := by
      rw [isSpentIn_iff, hrow]
      exact ⟨hpart, hspend, hagain⟩
    have hsecond : (h.withDeposit side).isSpentIn part batch = true :=
      isSpentIn_iff.2 ⟨hpart, hunspent, hagain⟩
    rw [spendIn_of_spent hhit, spendIn_of_spent hfirst, spendIn_of_spent hsecond]
    exact spent_congr hrow hagain
  · rw [spendIn_of_not hhit]

end Holding

/-- A spend seen early is absorbed, whatever deposit is due. -/
theorem map_spendIn_receive {early batch : Batch} (hearly : early.Foretells batch)
    (part : Int → Bool) (d? : Option Deposit) (held : Option Holding) :
    (receive d? (held.map (·.spendIn part early))).map (·.spendIn part batch) =
      (receive d? held).map (·.spendIn part batch) := by
  cases held with
  | none => rfl
  | some h =>
    cases d? with
    | none =>
      have hself : (h.spendIn part early).withDeposit h.row.deposit = h.spendIn part early := by
        calc (h.spendIn part early).withDeposit h.row.deposit
            = (h.spendIn part early).withDeposit (h.spendIn part early).row.deposit := by
              rw [h.deposit_spendIn]
          _ = h.spendIn part early := rfl
      have hsame := h.spendIn_absorb hearly part h.row.deposit
      rw [hself] at hsame
      exact congrArg some hsame
    | some d =>
      simp only [Option.map_some, receive, Holding.restage_eq, Holding.deposit_spendIn,
        h.spendIn_absorb hearly part]

/-- A deposit seen early gives way to that of the batch. -/
theorem receive_receive {d? d'? : Option Deposit} (held : Option Holding)
    (h : ∀ d, d? = some d → d.side.isConfirmed = false ∧ ∃ d', d'? = some d' ∧ d'.key = d.key) :
    receive d'? (receive d? held) = receive d'? held := by
  cases d? with
  | none => rfl
  | some d =>
    obtain ⟨hunconf, d', rfl, hkey⟩ := h d rfl
    cases held with
    | none => simp only [receive, Holding.restage, hunconf, hkey, Bool.false_eq_true, if_false]
    | some held =>
      simp only [receive, Holding.restage]
      split
      · rfl
      · simp only [hunconf, Bool.false_eq_true, if_false]

namespace Store

variable {s m t : Store} {part : Int → Bool} {b : Nat} {early batch : Batch} {k : LedgerKey}

/-- What was due early is due again, if its address is still there. -/
theorem due?_of_covers {outputs again : List StagedOutput} (ht : t.WellFormed)
    (hsub : ∀ a ∈ s.addresses, a ∈ t.addresses) (hcovers : Covers again outputs) {d : Deposit}
    (hdue : s.due? part outputs k = some d) : ∃ d', t.due? part again k = some d' := by
  obtain ⟨o, ho, -⟩ := Option.map_eq_some_iff.1 hdue
  have hpays := List.find?_some ho
  rw [pays, Bool.and_eq_true, Bool.and_eq_true, beq_iff_eq, beq_iff_eq] at hpays
  obtain ⟨⟨hpart, hscript⟩, hkey⟩ := hpays
  obtain ⟨y, hy, hyscript, hyredeem, hypoint⟩ := hcovers o (List.mem_of_find?_eq_some ho)
  have hykey : (Deposit.ofOutput k.address y).key = k := by
    rw [← hkey]
    simp only [Deposit.ofOutput, hyredeem, hypoint]
  have hypays : t.pays part k y = true := by
    rw [pays, hpart, scriptOf?_mono ht hsub hscript, hyscript, hykey, beq_self_eq_true,
      beq_self_eq_true]
    rfl
  have hsome := List.find?_isSome.2 ⟨y, hy, hypays⟩
  obtain ⟨found, hfound⟩ := Option.isSome_iff_exists.1 hsome
  exact ⟨_, Option.map_eq_some_iff.2 ⟨found, hfound, rfl⟩⟩

/-- **A batch absorbs what foretold it**: in the end nothing had been seen early. -/
theorem Settles.absorb (h : Settles part b early s m) (h' : Settles part b batch m t)
    (hearly : early.Foretells batch) : Settles part b batch s t where
  reaches := h.reaches.trans h'.reaches hearly.outputs
    (fun o ho => ⟨o, ho, rfl, rfl, rfl⟩) h'.reaches.closed.matched
  holding := by
    intro k
    rw [h'.holding k, h.holding k, map_spendIn_receive hearly, receive_receive]
    intro d hdue
    have hkey := key_of_due? hdue
    obtain ⟨d', hdue'⟩ := due?_of_covers h'.reaches.built.wellFormed
      h'.reaches.within.addresses hearly.outputs hdue
    refine ⟨?_, d', hdue', (key_of_due? hdue').trans hkey.symm⟩
    obtain ⟨o, ho, rfl⟩ := Option.map_eq_some_iff.1 hdue
    rw [DepositSide.isConfirmed, Deposit.ofOutput,
      hearly.unconfirmed.1 o (List.mem_of_find?_eq_some ho)]
    rfl

end Store

namespace Indexer

open Store

variable {ix mid last : Indexer} {placed : PlacedBlock} {chain : ChainView}
variable {seen : List (Transaction × UInt32)} {states : List Indexer}

/-- Processes transactions of the mempool one by one, each with the time it was seen, and lists the
states after them. -/
def seeEach (ix : Indexer) : List (Transaction × UInt32) → Result (List Indexer)
  | [] => .ok []
  | (tx, time) :: rest => do
    let (_, next) ← ix.processTransaction tx time
    let states ← next.seeEach rest
    return next :: states

/-- Transactions of the mempool move no wallet. -/
theorem Ready.seeEach (h : ix.Ready) (hrun : ix.seeEach seen = .ok states)
    (hrows : ∀ j ∈ states, j.store.OneRowPerOutput) :
    (states.getLastD ix).Ready ∧ (states.getLastD ix).store.wallets = ix.store.wallets ∧
      (states.getLastD ix).config = ix.config := by
  induction seen generalizing ix states with
  | nil =>
    cases hrun
    exact ⟨h, rfl, rfl⟩
  | cons e seen ih =>
    obtain ⟨⟨out, next⟩, hnext, hrun⟩ := bind_eq_ok_iff.1 hrun
    obtain ⟨rest, hrest, hrun⟩ := bind_eq_ok_iff.1 hrun
    cases hrun
    obtain ⟨happly, hconfig⟩ := applyBatch_of_processBatch hnext
    obtain ⟨-, hready⟩ := h.settles (fun _ => rfl) hnext (hrows next List.mem_cons_self)
    obtain ⟨hlast, hwallets, hconfig'⟩ :=
      ih hready hrest fun j hj => hrows j (List.mem_cons_of_mem _ hj)
    rw [List.getLastD_cons]
    exact ⟨hlast, hwallets.trans (wallets_applyBatch_none happly), hconfig'.trans hconfig⟩

/-- **After any number of its transactions**, a block settles the store as it was before them. -/
theorem Ready.settles_after_mempool {part : Int → Bool} (h : ix.Ready)
    (hscope : ∀ w, ix.store.inScope (Scope.ofBatch ix.config none) w = part w)
    (hscope' : ∀ w, ix.store.inScope
      (Scope.ofBatch ix.config (some ⟨placed.block.prev, placed.ref⟩)) w = part w)
    (hseen : ∀ e ∈ seen, e.1 ∈ placed.block.transactions) (hrun : ix.seeEach seen = .ok states)
    (hrows : ∀ j ∈ states, j.store.OneRowPerOutput) {outcome : BatchOutcome}
    (hlast : (states.getLastD ix).processBlock placed chain = .ok (outcome, last))
    (ho : last.store.OneRowPerOutput) :
    Settles part ix.config.topUpBuffer.toNat (Batch.ofBlock placed) ix.store last.store ∧
      last.Ready := by
  induction seen generalizing ix states with
  | nil =>
    cases hrun
    exact h.settles hscope' hlast ho
  | cons e seen ih =>
    obtain ⟨⟨out, next⟩, hnext, hrun⟩ := bind_eq_ok_iff.1 hrun
    obtain ⟨rest, hrest, hrun⟩ := bind_eq_ok_iff.1 hrun
    cases hrun
    rw [List.getLastD_cons] at hlast
    obtain ⟨happly, hconfig⟩ := applyBatch_of_processBatch hnext
    obtain ⟨hfirst, hready⟩ := h.settles hscope hnext (hrows next List.mem_cons_self)
    -- the same wallets take part as before
    have hsame : ∀ scope w, next.store.inScope scope w = ix.store.inScope scope w :=
      fun scope w => inScope_congr (wallets_applyBatch_none happly) w
    obtain ⟨hsettles, hlastReady⟩ := ih hready (fun w => by rw [hconfig, hsame, hscope])
      (fun w => by rw [hconfig, hsame, hscope']) (fun e he => hseen e (List.mem_cons_of_mem _ he))
      hrest (fun j hj => hrows j (List.mem_cons_of_mem _ hj)) hlast
    rw [hconfig] at hsettles
    have htx := hseen e List.mem_cons_self
    exact ⟨hfirst.absorb hsettles (Batch.foretells_ofBlock htx e.2), hlastReady⟩

/-- If every wallet that the mode admits is synced to the parent of a header, the header leaves no one
out. -/
theorem inScope_of_synced {header : BatchHeader}
    (hsynced : ∀ w ∈ ix.store.wallets, (∀ name, ix.config.mode = .singleWallet name → w.name = name) →
      w.hash = header.parent.bytes) (wallet : Int) :
    ix.store.inScope (Scope.ofBatch ix.config none) wallet =
      ix.store.inScope (Scope.ofBatch ix.config (some header)) wallet := by
  rw [Bool.eq_iff_iff, inScope_iff, inScope_iff]
  constructor
  · rintro ⟨w, hw, hid, hname, -⟩
    refine ⟨w, hw, hid, hname, fun header' hheader => ?_⟩
    cases hheader
    exact hsynced w hw hname
  · rintro ⟨w, hw, hid, hname, -⟩
    exact ⟨w, hw, hid, hname, fun _ hnone => nomatch hnone⟩

/-- **Confirmation erases mempool history.** Whatever transactions of a block were seen in the mempool,
in whatever order and at whatever times, once the block is processed the store is like one in which
none of them had been seen. -/
theorem confirmation_erases_mempool {calls : List Call} {past : List Indexer}
    (hist : History calls (ix :: past)) (hrows : ∀ j ∈ ix :: past, j.store.OneRowPerOutput)
    (hb : ix.config.topUpBuffer.toNat < ExtendedKey.numberLimit)
    (hsynced : ∀ w ∈ ix.store.wallets, (∀ name, ix.config.mode = .singleWallet name → w.name = name) →
      w.hash = placed.block.prev.bytes)
    (hseen : ∀ e ∈ seen, e.1 ∈ placed.block.transactions)
    {outcome outcome' : BatchOutcome} {plain : Indexer}
    (hplain : ix.processBlock placed chain = .ok (outcome, plain))
    (ho : plain.store.OneRowPerOutput)
    (hrun : ix.seeEach seen = .ok states) (hrows' : ∀ j ∈ states, j.store.OneRowPerOutput)
    (hlast : (states.getLastD ix).processBlock placed chain = .ok (outcome', last))
    (ho' : last.store.OneRowPerOutput) : plain.store.Alike last.store := by
  have hready := ready_of_history hist hrows hb
  have hscope := @inScope_of_synced ix ⟨placed.block.prev, placed.ref⟩ hsynced
  obtain ⟨hdirect, hplainReady⟩ := hready.settles (fun _ => rfl) hplain ho
  obtain ⟨hmidReady, hwallets, hconfig⟩ := hready.seeEach hrun hrows'
  obtain ⟨hsettles, hlastReady⟩ :=
    hready.settles_after_mempool hscope (fun _ => rfl) hseen hrun hrows' hlast ho'
  refine hdirect.alike hsettles hplainReady.anchored hlastReady.anchored ?_
  -- both runs move the same wallets to the same block
  have hmoves := moves_applyBatch hready.built.wellFormed (applyBatch_of_processBatch hplain).1
  have hmoves' := moves_applyBatch hmidReady.built.wellFormed (applyBatch_of_processBatch hlast).1
  rw [hwallets, hconfig] at hmoves'
  exact hmoves.eq hmoves' rfl

end Indexer

namespace Sample

/-- A block that receives and spends at once. -/
def settling : PlacedBlock := ⟨1, ⟨1, Hash256.zero, Hash256.zero, 9, 0, 0, [pay, spend]⟩⟩

/-- The spend is seen before what it spends, and once more after it. -/
def seen : List (Transaction × UInt32) := [(spend, 3), (pay, 5), (spend, 4)]

theorem processBlock_settling :
    ((opened unbuffered).processBlock settling view).map (fun answer =>
      decide answer.2.store.OneRowPerOutput) = .ok true := by
  decide +kernel

theorem seeEach_settling :
    (((opened unbuffered).seeEach seen).bind fun states =>
      ((states.getLastD (opened unbuffered)).processBlock settling view).map fun answer =>
        (states.map fun ix => (decide ix.store.OneRowPerOutput, ix.store.ledger.map (·.spend.time)),
          decide answer.2.store.OneRowPerOutput)) =
    .ok ([(true, [none]), (true, [none, none]), (true, [none, some 4])], true) := by
  decide +kernel

end Sample

namespace Indexer

open Store

/-- A spend that is seen before and after what it spends leaves no trace once both are confirmed. -/
theorem confirmation_erases_mempool_spent : ∃ (calls : List Call) (past states : List Indexer)
    (plain last : Indexer),
    History calls (Sample.opened Sample.unbuffered :: past) ∧
    (Sample.opened Sample.unbuffered).seeEach Sample.seen = .ok states ∧
    states.map (fun ix => ix.store.ledger.map (·.spend.time)) =
      [[none], [none, none], [none, some 4]] ∧
    plain.store.Alike last.store := by
  obtain ⟨past, hist, hpast⟩ := Sample.history Sample.unbuffered
  obtain ⟨⟨outcome, plain⟩, hplain, ho⟩ := map_eq_ok_iff.1 Sample.processBlock_settling
  obtain ⟨states, hrun, hanswers⟩ := bind_eq_ok_iff.1 Sample.seeEach_settling
  obtain ⟨⟨outcome', last⟩, hlast, hanswers⟩ := map_eq_ok_iff.1 hanswers
  rw [Prod.mk.injEq, decide_eq_true_eq] at hanswers
  rw [decide_eq_true_eq] at ho
  have hrows : ∀ j ∈ Sample.opened Sample.unbuffered :: past, j.store.OneRowPerOutput :=
    List.forall_mem_cons.2 ⟨oneRow_of_nil rfl, fun j hj => oneRow_of_nil (hpast j hj)⟩
  have hrows' : ∀ j ∈ states, j.store.OneRowPerOutput := by
    intro j hj
    have hmem := List.mem_map_of_mem (f := fun ix : Indexer =>
      (decide ix.store.OneRowPerOutput, ix.store.ledger.map (·.spend.time))) hj
    rw [hanswers.1] at hmem
    simp only [List.mem_cons, Prod.mk.injEq, decide_eq_true_eq, List.not_mem_nil, or_false] at hmem
    rcases hmem with hmem | hmem | hmem <;> exact hmem.1
  have hsynced : ∀ w ∈ (Sample.opened Sample.unbuffered).store.wallets,
      (∀ name, (Sample.opened Sample.unbuffered).config.mode = .singleWallet name → w.name = name) →
        w.hash = Sample.settling.block.prev.bytes := by
    intro w hw _
    rw [List.mem_singleton.1 hw]
    rfl
  have hseen : ∀ e ∈ Sample.seen, e.1 ∈ Sample.settling.block.transactions := by
    simp [Sample.seen, Sample.settling]
  have halike := confirmation_erases_mempool hist hrows (by decide) hsynced hseen hplain ho hrun hrows'
    hlast hanswers.2
  refine ⟨_, past, states, plain, last, hist, hrun, ?_, halike⟩
  have hsnd := congrArg (List.map Prod.snd) hanswers.1
  rw [List.map_map] at hsnd
  exact hsnd

end Indexer

end WalletLedger
