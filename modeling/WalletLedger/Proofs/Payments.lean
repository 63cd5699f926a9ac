import WalletLedger.Proofs.Sources

/-!
# Payments mirror spends

A spent row has one payment for each output of the transaction that spends it, however often
deposits were restaged, blocks rolled back and transactions dropped. This is so when batches are
staged from transactions, transaction names are unique, and no output has two rows.

* `Batch.FromTransactions`: what batches staged from transactions hold.
* `Store.Mirrors`: the payments of every row are those of its spend.
* `Indexer.payments_mirror_spends`: what the queries show of this.
-/

namespace WalletLedger

/-- What payments say of a transaction: its outputs, by position. -/
def Transaction.payees (tx : Transaction) : List Payee :=
  tx.outputs.zipIdx.map fun (output, vout) => ⟨UInt32.ofNat vout, output.script, output.value⟩

/-- The payments of an output of some time that a transaction makes by spending it. -/
def Transaction.paymentsFrom (tx : Transaction) (time : UInt32) (o : OutPoint) : List Payment :=
  tx.outputs.zipIdx.map fun (output, vout) =>
    ⟨time, o, UInt32.ofNat vout, output.script, output.value⟩

/-- What a payment says of a staged output. -/
def StagedOutput.payee (o : StagedOutput) : Payee := ⟨o.outpoint.vout, o.redeem, o.value⟩

namespace Batch

/-- The spends of one output are by one transaction. -/
def OneSpender (b : Batch) : Prop :=
  ∀ sp ∈ b.spends, ∀ sp' ∈ b.spends, sp.prevOut = sp'.prevOut → sp.txid = sp'.txid

instance (b : Batch) : Decidable b.OneSpender :=
  inferInstanceAs (Decidable (∀ sp ∈ b.spends, ∀ sp' ∈ b.spends, _ → sp.txid = sp'.txid))

/-- Outputs are those of certain transactions, and spends come with all outputs of theirs. -/
structure FromTransactions (txs : Transaction → Prop) (b : Batch) : Prop where
  outputs : ∀ o ∈ b.outputs, ∃ tx, txs tx ∧ tx.txid = o.outpoint.txid ∧ o.payee ∈ tx.payees
  spends : ∀ sp ∈ b.spends, ∃ tx, txs tx ∧ tx.txid = sp.txid ∧ tx.totalOut = sp.totalOut ∧
    ∀ y ∈ tx.payees, ∃ o ∈ b.outputs, o.outpoint.txid = tx.txid ∧ o.payee = y

variable {txs : Transaction → Prop}

theorem fromTransactions_ofTransaction {tx : Transaction} (htx : txs tx) (time : UInt32)
    (block : Option BlockRef) : (ofTransaction tx time block).FromTransactions txs := by
  constructor
  · intro o ho
    obtain ⟨⟨output, vout⟩, hmem, rfl⟩ := List.mem_map.1 ho
    exact ⟨tx, htx, rfl, List.mem_map.2 ⟨(output, vout), hmem, rfl⟩⟩
  · intro sp hsp
    have hfields : sp.txid = tx.txid ∧ sp.totalOut = tx.totalOut := by
      simp only [ofTransaction] at hsp
      split at hsp
      · cases hsp
      · obtain ⟨input, -, rfl⟩ := List.mem_map.1 hsp
        exact ⟨rfl, rfl⟩
    refine ⟨tx, htx, hfields.1.symm, hfields.2.symm, fun y hy => ?_⟩
    obtain ⟨⟨output, vout⟩, hmem, rfl⟩ := List.mem_map.1 hy
    exact ⟨_, List.mem_map.2 ⟨(output, vout), hmem, rfl⟩, rfl, rfl⟩

theorem fromTransactions_concat {bs : List Batch} (h : ∀ b ∈ bs, b.FromTransactions txs) :
    (concat bs).FromTransactions txs := by
  constructor
  · intro o ho
    obtain ⟨b, hb, ho⟩ := List.mem_flatMap.1 ho
    exact (h b hb).outputs o ho
  · intro sp hsp
    obtain ⟨b, hb, hsp⟩ := List.mem_flatMap.1 hsp
    obtain ⟨tx, htx, htxid, htotal, hall⟩ := (h b hb).spends sp hsp
    refine ⟨tx, htx, htxid, htotal, fun y hy => ?_⟩
    obtain ⟨o, ho, hrest⟩ := hall y hy
    exact ⟨o, List.mem_flatMap.2 ⟨b, hb, ho⟩, hrest⟩

theorem fromTransactions_ofBlock {placed : PlacedBlock}
    (h : ∀ tx ∈ placed.block.transactions, txs tx) : (ofBlock placed).FromTransactions txs := by
  refine fromTransactions_concat fun b hb => ?_
  obtain ⟨tx, htx, rfl⟩ := List.mem_map.1 hb
  exact fromTransactions_ofTransaction (h tx htx) _ _

end Batch

/-- A call that stages nothing of its own stages the transactions it is handed. -/
theorem Call.fromTransactions {call : Call} (hcall : call.isStagedByCaller = false) {b : Batch}
    (hb : b ∈ call.batch?) : b.FromTransactions (· ∈ call.transactions) := by
  cases call with
  | processBatch => cases hcall
  | processBlock placed =>
    cases hb
    exact Batch.fromTransactions_ofBlock fun tx htx => htx
  | processBlocks blocks =>
    cases hb
    refine Batch.fromTransactions_concat fun b hb => ?_
    obtain ⟨placed, hplaced, rfl⟩ := List.mem_map.1 hb
    exact Batch.fromTransactions_ofBlock fun tx htx => List.mem_flatMap.2 ⟨placed, hplaced, htx⟩
  | processTransaction tx time =>
    cases hb
    exact Batch.fromTransactions_ofTransaction (List.mem_singleton_self tx) _ _
  | _ => cases hb

/-- As long as positions are 32-bit words, the payees of a transaction are numbered in order. -/
theorem Transaction.index_payees {tx : Transaction} (h : tx.outputs.length ≤ UInt32.size) :
    tx.payees.map (·.index.toNat) = List.range tx.outputs.length := by
  have hsnd : tx.outputs.zipIdx.map Prod.snd = List.range tx.outputs.length := by
    rw [List.zipIdx_map_snd, List.range_eq_range']
  unfold payees
  rw [List.map_map, ← hsnd]
  refine List.map_congr_left fun x hx => ?_
  have hlt := List.snd_lt_of_mem_zipIdx hx
  exact UInt32.toNat_ofNat_of_lt' (by omega)

theorem Transaction.ascending_payees {tx : Transaction} (h : tx.outputs.length ≤ UInt32.size) :
    tx.payees.Pairwise fun y y' => y.index.toNat < y'.index.toNat := by
  have hrange : (tx.payees.map (·.index.toNat)).Pairwise (· < ·) := by
    rw [tx.index_payees h]
    exact List.pairwise_lt_range
  exact List.pairwise_map.1 hrange

/-- Payees of one index are one payee. -/
theorem Transaction.eq_of_index {tx : Transaction} (h : tx.outputs.length ≤ UInt32.size)
    {y y' : Payee} (hy : y ∈ tx.payees) (hy' : y' ∈ tx.payees)
    (hindex : y.index.toNat = y'.index.toNat) : y = y' := by
  have hnodup : (tx.payees.map (·.index.toNat)).Nodup := by
    rw [tx.index_payees h]
    exact List.nodup_range
  exact List.inj_on_of_nodup_map hnodup hy hy' hindex

/-! ## Inserting payments -/

/-- Inserted payments are all there, if those of one source and index are one payment. -/
theorem mem_insertPayments_iff {ps payments : List PaymentRow} {q : PaymentRow}
    (h : ∀ p ∈ ps, ∀ q, q ∈ ps ∨ q ∈ payments → p.source = q.source → p.index = q.index → p = q) :
    q ∈ ps.foldl insertPayment payments ↔ q ∈ ps ∨ q ∈ payments := by
  induction ps generalizing payments with
  | nil => simp
  | cons p ps ih =>
    have hmem : ∀ q, q ∈ insertPayment payments p ↔ q = p ∨ q ∈ payments := by
      intro q
      unfold insertPayment
      rw [List.mem_append, List.mem_singleton, List.mem_filter]
      constructor
      · rintro (hq | rfl)
        · exact .inr hq.1
        · exact .inl rfl
      · rintro (rfl | hq)
        · exact .inr rfl
        · -- a payment that gives way is the one that is inserted
          by_cases hslot : p.source = q.source ∧ p.index = q.index
          · exact .inr (h p List.mem_cons_self q (.inr hq) hslot.1 hslot.2).symm
          · refine .inl ⟨hq, ?_⟩
            rw [Bool.not_eq_true', Bool.and_eq_false_iff, beq_eq_false_iff_ne, beq_eq_false_iff_ne]
            rcases Decidable.not_and_iff_or_not.1 hslot with hne | hne
            · exact .inl (Ne.symm hne)
            · exact .inr (Ne.symm hne)
    have hagree : ∀ p' ∈ ps, ∀ q, q ∈ ps ∨ q ∈ insertPayment payments p →
        p'.source = q.source → p'.index = q.index → p' = q := by
      intro p' hp' q hq
      refine h p' (List.mem_cons_of_mem _ hp') q ?_
      rw [hmem q] at hq
      rcases hq with hq | rfl | hq
      · exact .inl (List.mem_cons_of_mem _ hq)
      · exact .inl List.mem_cons_self
      · exact .inr hq
    rw [List.foldl_cons, ih hagree, hmem, List.mem_cons]
    tauto

/-- No two inserted payments have one source and index. -/
theorem pairwise_insertPayments {ps payments : List PaymentRow}
    (h : payments.Pairwise fun p q => p.source = q.source → p.index ≠ q.index) :
    (ps.foldl insertPayment payments).Pairwise fun p q => p.source = q.source → p.index ≠ q.index := by
  induction ps generalizing payments with
  | nil => exact h
  | cons p ps ih =>
    refine ih ?_
    unfold insertPayment
    rw [List.pairwise_append]
    refine ⟨h.filter _, List.pairwise_singleton _ _, fun q hq p' hp' hsource hindex => ?_⟩
    rw [List.mem_singleton] at hp'
    subst hp'
    have hkept := (List.mem_filter.1 hq).2
    rw [hsource, hindex, beq_self_eq_true, beq_self_eq_true] at hkept
    cases hkept

/-! ## The payments of a spend -/

/-- Transactions are told apart by their names, and their outputs by position, which an outpoint holds
as a 32-bit word. -/
structure Identified (txs : Transaction → Prop) : Prop where
  txid : ∀ tx tx', txs tx → txs tx' → tx.txid = tx'.txid → tx = tx'
  position : ∀ tx, txs tx → tx.outputs.length ≤ UInt32.size

variable {txs : Transaction → Prop}

theorem prevOut_of_mem_spendsIn {r : LedgerRow} {spends : List StagedSpend} {sp : StagedSpend}
    (h : sp ∈ r.spendsIn spends) :
    sp ∈ spends ∧ sp.prevOut.txid.bytes = r.key.txid ∧ sp.prevOut.vout = r.key.vout := by
  obtain ⟨hsp, hout⟩ := List.mem_filter.1 h
  rw [Bool.and_eq_true, beq_iff_eq, beq_iff_eq] at hout
  exact ⟨hsp, hout⟩

/-- The payments that a batch has for a row: one for each payee of the spending transaction. -/
theorem mem_paymentsIn_iff (hids : Identified txs) {b : Batch} (hfrom : b.FromTransactions txs)
    (hone : b.OneSpender) {r : LedgerRow} {sp : StagedSpend} (hmem : sp ∈ r.spendsIn b.spends)
    {tx : Transaction} (htx : txs tx) (hname : tx.txid = sp.txid)
    (hall : ∀ y ∈ tx.payees, ∃ o ∈ b.outputs, o.outpoint.txid = tx.txid ∧ o.payee = y)
    {p : PaymentRow} : p ∈ r.paymentsIn b ↔ p.source = r.source ∧ p.payee ∈ tx.payees := by
  obtain ⟨hsp, htxid, hvout⟩ := prevOut_of_mem_spendsIn hmem
  constructor
  · intro hp
    refine ⟨Store.source_of_mem_paymentsIn hp, ?_⟩
    obtain ⟨sp', hsp', hp⟩ := List.mem_flatMap.1 hp
    obtain ⟨o, ho, rfl⟩ := List.mem_map.1 hp
    obtain ⟨ho, hout⟩ := List.mem_filter.1 ho
    obtain ⟨hsp', htxid', hvout'⟩ := prevOut_of_mem_spendsIn hsp'
    have hprev : sp'.prevOut = sp.prevOut :=
      OutPoint.eq_of_bytes (htxid'.trans htxid.symm) (hvout'.trans hvout.symm)
    -- all spends of the output are by one transaction
    obtain ⟨tx', htx', hname', hpayee⟩ := hfrom.outputs o ho
    have hsame : tx' = tx := by
      refine hids.txid tx' tx htx' htx ?_
      rw [hname', beq_iff_eq.1 hout, hone sp' hsp' sp hsp hprev, hname]
    rw [hsame] at hpayee
    exact hpayee
  · rintro ⟨hsource, hpayee⟩
    obtain ⟨o, ho, houtput, hpo⟩ := hall p.payee hpayee
    refine List.mem_flatMap.2 ⟨sp, hmem, List.mem_map.2 ⟨o, List.mem_filter.2 ⟨ho, ?_⟩, ?_⟩⟩
    · rw [houtput, hname, beq_self_eq_true]
    · obtain ⟨source, index, script, value⟩ := p
      simp only [StagedOutput.payee, PaymentRow.payee, Payee.mk.injEq] at hpo hsource
      rw [hpo.1, hpo.2.1, hpo.2.2, hsource]

/-- Inserting payments that have one source and the payees of a transaction gives its payees. -/
theorem payees_insertPayments {tx : Transaction} (h : tx.outputs.length ≤ UInt32.size)
    {source : PaymentSource} {ps : List PaymentRow}
    (hps : ∀ p, p ∈ ps ↔ p.source = source ∧ p.payee ∈ tx.payees) :
    ((ps.foldl insertPayment []).map (·.payee)).Perm tx.payees := by
  have hagree : ∀ p ∈ ps, ∀ q, q ∈ ps ∨ q ∈ ([] : List PaymentRow) →
      p.source = q.source → p.index = q.index → p = q := by
    intro p hp q hq hsource heq
    have hq' := hq.resolve_right List.not_mem_nil
    have hpayee : p.payee = q.payee :=
      tx.eq_of_index h ((hps p).1 hp).2 ((hps q).1 hq').2 (congrArg UInt32.toNat heq)
    obtain ⟨_, _, _, _⟩ := p
    obtain ⟨_, _, _, _⟩ := q
    simp_all [PaymentRow.payee]
  have hmem : ∀ p, p ∈ ps.foldl insertPayment [] ↔ p.source = source ∧ p.payee ∈ tx.payees := by
    intro p
    rw [mem_insertPayments_iff hagree, hps p]
    simp
  have hslots : (ps.foldl insertPayment []).Pairwise
      fun p q => p.source = q.source → p.index ≠ q.index := pairwise_insertPayments .nil
  have hnodup : (tx.payees.map (·.index.toNat)).Nodup := by
    rw [tx.index_payees h]
    exact List.nodup_range
  refine (List.perm_ext_iff_of_nodup ?_ (List.Nodup.of_map _ hnodup)).2 fun y => ?_
  · -- they all have one source, so their indexes differ
    rw [List.Nodup, List.pairwise_map]
    refine hslots.imp_of_mem fun {p q} hp hq hne heq => ?_
    refine hne ?_ (congrArg Payee.index heq)
    rw [((hmem p).1 hp).1, ((hmem q).1 hq).1]
  · rw [List.mem_map]
    constructor
    · rintro ⟨p, hp, rfl⟩
      exact ((hmem p).1 hp).2
    · intro hy
      exact ⟨y.row source, (hmem _).2 ⟨rfl, hy⟩, rfl⟩

/-- **A spent row gets one payment for each output** of the transaction that spends it. -/
theorem payees_of_spent (hids : Identified txs) {b : Batch} (hfrom : b.FromTransactions txs)
    (hone : b.OneSpender) {r : LedgerRow} (hhit : (r.spendsIn b.spends).isEmpty = false) :
    ∃ tx, txs tx ∧ (r.spendBy b.spends).spend.txid = some tx.txid.bytes ∧
      (r.spendBy b.spends).spend.totalOut = some tx.totalOut ∧
      (((r.paymentsIn b).foldl insertPayment []).map (·.payee)).Perm tx.payees := by
  obtain ⟨sp, hlast⟩ : ∃ sp, (r.spendsIn b.spends).getLast? = some sp := by
    cases hcase : (r.spendsIn b.spends).getLast? with
    | some sp => exact ⟨sp, rfl⟩
    | none =>
      rw [List.getLast?_eq_none_iff] at hcase
      rw [hcase] at hhit
      cases hhit
  have hmem := List.mem_of_getLast? hlast
  obtain ⟨tx, htx, hname, htotal, hall⟩ := hfrom.spends sp (prevOut_of_mem_spendsIn hmem).1
  have hspend : (r.spendBy b.spends).spend = SpendSide.ofSpend sp := by
    rw [LedgerRow.spendBy, hlast]
  refine ⟨tx, htx, ?_, ?_, ?_⟩
  · rw [hspend, hname]
    rfl
  · rw [hspend, htotal]
    rfl
  · exact payees_insertPayments (hids.position tx htx) fun p =>
      mem_paymentsIn_iff hids hfrom hone hmem htx hname hall

namespace Store

variable {s s' : Store} {staged : Batch → Prop}

/-- The payments of every row are those of its spend. -/
def Mirrors (txs : Transaction → Prop) (s : Store) : Prop :=
  ∀ r ∈ s.ledger, (r.spend = .unspent ∧ s.paid r.source = []) ∨
    ∃ tx, txs tx ∧ r.spend.txid = some tx.txid.bytes ∧ r.spend.totalOut = some tx.totalOut ∧
      (s.paid r.source).Perm tx.payees

/-- A batch of the transactions that are told apart. -/
structure Admits (txs : Transaction → Prop) (b : Batch) : Prop where
  source : b.FromTransactions txs
  spender : b.OneSpender

/-- **A write keeps payments the mirror of spends.** -/
theorem mirrors_of_write (hids : Identified txs) (hs : s.WellFormed) (ha : s.Anchored)
    (ho' : s'.OneRowPerOutput) (hm : s.Mirrors txs) (h : Write (Admits txs) s s') :
    s'.Mirrors txs := by
  intro r' hr'
  cases (carried_of_write hs ha ho' h).2 r' hr' with
  | blank fresh spend paid => exact .inl ⟨spend, paid⟩
  | @same r mem key spend deposit paid =>
    rw [← spend, paid]
    exact hm r mem
  | spent admitted mem hit row paid =>
    rw [paid, row]
    exact .inr (payees_of_spent hids admitted.source admitted.spender (hit_of_isSpentBy hit).2)

theorem mirrors_of_writes (hids : Identified txs) (hs : s.WellFormed) (ha : s.Anchored)
    (ho' : s'.OneRowPerOutput) (hm : s.Mirrors txs) (h : Writes (Admits txs) s s') :
    s'.Mirrors txs := by
  induction h with
  | refl => exact hm
  | tail hwrites hwrite ih =>
    have hmid := wellFormed_of_writes hs hwrites
    have homid := oneRow_of_write hmid ho' hwrite
    exact mirrors_of_write hids hmid (anchored_of_writes hs ha homid hwrites) ho' (ih homid) hwrite

/-- Deleting rows and clearing spends keeps payments the mirror of spends. -/
theorem mirrors_of_clear (hm : s.Mirrors txs)
    (h : ∀ r' ∈ s'.ledger, (r'.spend = .unspent ∧ s'.paid r'.source = []) ∨
      (r' ∈ s.ledger ∧ s'.paid r'.source = s.paid r'.source)) : s'.Mirrors txs := by
  intro r' hr'
  rcases h r' hr' with hblank | ⟨hr, hpaid⟩
  · exact .inl hblank
  · rw [hpaid]
    exact hm r' hr

/-- Payments are accounted for: each by a spent row, and all of a row by its spend. -/
structure Accounted (txs : Transaction → Prop) (s : Store) : Prop where
  wellFormed : s.WellFormed
  anchored : s.Anchored
  mirrors : s.Mirrors txs

theorem Accounted.empty : Store.empty.Accounted txs where
  wellFormed := .empty
  anchored := by intro p hp; cases hp
  mirrors := by intro r hr; cases hr

theorem accounted_of_change (hids : Identified txs) (s s' : Store) (ho : s.OneRowPerOutput)
    (ho' : s'.OneRowPerOutput) (h : s.Accounted txs) (hc : Change (Admits txs) s s') :
    s'.Accounted txs := by
  obtain ⟨hs, ha, hm⟩ := h
  refine ⟨wellFormed_of_change hs hc, anchored_of_change hs ho ho' ha hc, ?_⟩
  cases hc with
  | written writes => exact mirrors_of_writes hids hs ha ho' hm writes
  | undone held above build => exact mirrors_of_clear hm (carried_of_undoAbove ha ho _ _).2
  | dropped held => exact mirrors_of_clear hm (carried_of_dropUnconfirmed ha ho _ _).2

/-- The payments of a source are ordered by their index. -/
theorem notAfter_row (source : PaymentSource) (y y' : Payee) :
    notAfter paymentOrder (y.row source) (y'.row source) = true ↔
      y.index.toNat ≤ y'.index.toNat := by
  have horder : paymentOrder (y.row source) (y'.row source) = compare y.index y'.index := by
    simp only [paymentOrder, compareLex, compareOn, Payee.row, Std.ReflOrd.compare_self,
      Ordering.then]
  rw [notAfter, horder, Std.isLE_compare, UInt32.le_iff_toNat_le]

/-- The payments of a source are answered in the order of their index. -/
theorem sortBy_payees {tx : Transaction} (h : tx.outputs.length ≤ UInt32.size)
    (source : PaymentSource) {ys : List Payee} (hys : ys.Perm tx.payees) :
    Sorting.sortBy (notAfter paymentOrder) (ys.map (·.row source)) =
      tx.payees.map (·.row source) := by
  refine Sorting.sortBy_eq_of_perm (hys.map _) ?_ ?_
  · rw [List.pairwise_map]
    refine (tx.ascending_payees h).imp fun {y y'} hlt => ?_
    rw [notAfter_row]
    omega
  · intro p hp q hq hpq hqp
    obtain ⟨y, hy, rfl⟩ := List.mem_map.1 hp
    obtain ⟨y', hy', rfl⟩ := List.mem_map.1 hq
    rw [notAfter_row] at hpq hqp
    have hsame : y.index.toNat = y'.index.toNat := by omega
    rw [tx.eq_of_index h hy hy' hsame]

end Store

/-- The payments of a transaction add up to the sum of its outputs. -/
theorem Transaction.sum_paymentsFrom (tx : Transaction) (time : UInt32) (o : OutPoint) :
    (tx.paymentsFrom time o).foldl (fun sum p => sum + p.value) 0 = tx.totalOut := by
  have hfst : tx.outputs.zipIdx.map Prod.fst = tx.outputs := List.zipIdx_map_fst _ _
  unfold paymentsFrom totalOut
  conv => rhs; rw [← hfst]
  rw [List.foldl_map, List.foldl_map]

/-- A row's payments are read as payments of its output. -/
theorem Transaction.decode_payees (tx : Transaction) {r : LedgerRow} {o : OutPoint}
    (htxid : o.txid.bytes = r.key.txid) (hvout : o.vout = r.key.vout) :
    (tx.payees.map (·.row r.source)).mapM (·.decode) = .ok (tx.paymentsFrom r.deposit.time o) := by
  have hdecode : ∀ p ∈ tx.payees.map (·.row r.source),
      p.decode = .ok (⟨r.deposit.time, o, p.index, p.script, p.value⟩ : Payment) := by
    intro p hp
    obtain ⟨y, -, rfl⟩ := List.mem_map.1 hp
    have hread : readTxid r.key.txid = .ok o.txid := by rw [← htxid, readTxid_bytes]
    simp only [PaymentRow.decode, Payee.row, LedgerRow.source, hread, ← hvout]
    rfl
  rw [mapM_eq_ok hdecode, payees, List.map_map, List.map_map]
  rfl

namespace Sample

/-- The row of what was received, once it is spent. -/
def receivedSpent : LedgerRow :=
  { received none 7 with
    spend := ⟨none, none, some false, some 8, some spend.txid.bytes, some 4500⟩ }

/-- The store after the payment is seen. -/
def paid : Store := { store with ledger := [received none 7] }

/-- The store after what was received is spent. -/
def spent : Store where
  wallets := store.wallets
  accounts := store.accounts
  addresses := store.addresses
  ledger :=
    [receivedSpent,
      ⟨⟨⟨⟨1, 0, 1⟩, 0⟩, change.toKeyHash, spend.txid.bytes, 1⟩,
        ⟨change.toKeyHash, 1500, none, none, 8, false⟩, .unspent⟩]
  payments :=
    [⟨⟨7, pay.txid.bytes, 0⟩, 0, script "6a", 3000⟩,
      ⟨⟨7, pay.txid.bytes, 0⟩, 1, change.toKeyHash, 1500⟩]

/-- The calls that lead there. -/
def spending : List Call :=
  .processTransaction spend 8 :: .reopen .bitcoin unbuffered :: .processTransaction pay 7 ::
    calls unbuffered

theorem spending_history : ∃ past ix, Indexer.History spending (ix :: past) ∧ ix.store = spent ∧
    ∀ j ∈ past, j.store.OneRowPerOutput := by
  have hpay : ((opened unbuffered).perform (.processTransaction pay 7)).map (·.store) =
      .ok paid := by decide +kernel
  have hspend : (((opened unbuffered).reopenedWith paid unbuffered).perform
      (.processTransaction spend 8)).map (·.store) = .ok spent := by decide +kernel
  obtain ⟨past, hist, hpast⟩ := history unbuffered
  obtain ⟨ix₁, hist₁, hstore₁⟩ := hist.reopened (by simp) hpay unbuffered
  obtain ⟨ix, hperform, hstore⟩ := map_eq_ok_iff.1 hspend
  refine ⟨_, ix, hist₁.called hperform, hstore, ?_⟩
  have hpaid : paid.OneRowPerOutput := by decide +kernel
  intro j hj
  simp only [List.mem_cons] at hj
  rcases hj with rfl | rfl | rfl | hj
  · exact hpaid
  · exact hstore₁ ▸ hpaid
  · exact Store.oneRow_of_nil rfl
  · exact Store.oneRow_of_nil (hpast j hj)

end Sample

namespace Indexer

open Store

variable {calls : List Call} {past : List Indexer} {ix : Indexer}

/-- **Payments mirror spends**, in every state of a history that stages transactions as they are. -/
theorem payments_mirror_spends (hist : History calls (ix :: past))
    (hcalls : ∀ call ∈ calls, call.isStagedByCaller = false)
    (hrows : ∀ j ∈ ix :: past, j.store.OneRowPerOutput)
    (hids : Identified (· ∈ calls.flatMap (·.transactions)))
    (hspends : ∀ call ∈ calls, ∀ b ∈ call.batch?, b.OneSpender) :
    (∀ r ∈ ix.store.ledger, ∃ e, r.decode = .ok e ∧
      (e.spend = none → ix.store.paymentsFor e.outpoint = .ok []) ∧
      ∀ info, e.spend = some info → ∃ tx ∈ calls.flatMap (·.transactions), tx.txid = info.txid ∧
        ix.store.paymentsFor e.outpoint = .ok (tx.paymentsFrom e.time e.outpoint) ∧
        (tx.paymentsFrom e.time e.outpoint).foldl (fun sum p => sum + p.value) 0 = info.totalOut) ∧
    ∀ o, (∀ r ∈ ix.store.ledger, isOfOutput o r = false) → ix.store.paymentsFor o = .ok [] := by
  have hadmits : ∀ call ∈ calls, ∀ b ∈ call.batch?,
      Admits (· ∈ calls.flatMap (·.transactions)) b := by
    intro call hcall b hb
    have hfrom := Call.fromTransactions (hcalls call hcall) hb
    refine ⟨⟨fun o ho => ?_, fun sp hsp => ?_⟩, hspends call hcall b hb⟩
    · obtain ⟨tx, htx, hrest⟩ := hfrom.outputs o ho
      exact ⟨tx, List.mem_flatMap.2 ⟨call, hcall, htx⟩, hrest⟩
    · obtain ⟨tx, htx, hrest⟩ := hfrom.spends sp hsp
      exact ⟨tx, List.mem_flatMap.2 ⟨call, hcall, htx⟩, hrest⟩
  have hinv := hist.store_induction hadmits hrows .empty (accounted_of_change hids)
  obtain ⟨hs, ha, hm⟩ := storeOf_network ix ▸ hinv ix List.mem_cons_self ix.network
  have ho := hrows ix List.mem_cons_self
  refine ⟨fun r hr => ?_, fun o => paymentsFor_of_absent ha⟩
  obtain ⟨e, hdecode, htxid, hvout, htime, hspend, htotal⟩ := (hs.rows r hr).decode
  have hpayments := paymentsFor_eq ha ho hr htxid hvout
  refine ⟨e, hdecode, fun hnone => ?_, fun info hinfo => ?_⟩
  · rw [hnone] at hspend
    rw [hpayments, ha.paid_of_unspent ho hr hspend.symm]
    rfl
  · rw [hinfo, Option.map_some] at hspend htotal
    -- the entry tells of the same spend as the row
    rcases hm r hr with ⟨hunspent, -⟩ | ⟨tx, htx, hname, hsum, hperm⟩
    · rw [hunspent] at hspend
      cases hspend
    · rw [hname] at hspend
      rw [hsum] at htotal
      refine ⟨tx, htx, Hash256.ext (Option.some.inj hspend).symm, ?_, ?_⟩
      · rw [hpayments, sortBy_payees (hids.position tx htx) r.source hperm,
          tx.decode_payees htxid hvout, htime]
      · rw [tx.sum_paymentsFrom]
        exact (Option.some.inj htotal).symm

/-- A payment is received and spent, and the payments of the spend are those of its transaction. -/
theorem payments_mirror_spends_spent : ∃ calls past ix, History calls (ix :: past) ∧
    (∀ call ∈ calls, call.isStagedByCaller = false) ∧
    (∀ j ∈ ix :: past, j.store.OneRowPerOutput) ∧
    Identified (· ∈ calls.flatMap (·.transactions)) ∧
    (∀ call ∈ calls, ∀ b ∈ call.batch?, b.OneSpender) ∧
    ix.store.paymentsFor ⟨Sample.pay.txid, 0⟩ =
      .ok (Sample.spend.paymentsFrom 7 ⟨Sample.pay.txid, 0⟩) := by
  obtain ⟨past, ix, hist, hstore, hpast⟩ := Sample.spending_history
  have hcalls : ∀ call ∈ Sample.spending, call.isStagedByCaller = false := by decide
  have hspent : Sample.spent.OneRowPerOutput := by decide +kernel
  have hrows : ∀ j ∈ ix :: past, j.store.OneRowPerOutput :=
    List.forall_mem_cons.2 ⟨hstore ▸ hspent, hpast⟩
  have hids : Identified (· ∈ Sample.spending.flatMap (·.transactions)) := by
    have hne : Sample.spend.txid ≠ Sample.pay.txid := by decide +kernel
    have htxs : Sample.spending.flatMap (·.transactions) = [Sample.spend, Sample.pay] := rfl
    simp only [htxs, List.mem_cons, List.not_mem_nil, or_false]
    constructor
    · rintro tx tx' (rfl | rfl) (rfl | rfl) heq
      · rfl
      · exact absurd heq hne
      · exact absurd heq.symm hne
      · rfl
    · rintro tx (rfl | rfl) <;> decide
  have hspends : ∀ call ∈ Sample.spending, ∀ b ∈ call.batch?, b.OneSpender := by
    decide +kernel
  have hmem : Sample.receivedSpent ∈ ix.store.ledger := hstore ▸ List.mem_cons_self
  obtain ⟨e, hdecode, -, hmirror⟩ :=
    (payments_mirror_spends hist hcalls hrows hids hspends).1 _ hmem
  have hread : Sample.receivedSpent.decode = .ok
      ⟨⟨⟨1, 0, 0⟩, 0⟩, Sample.receiving.toKeyHash, Sample.receiving.toKeyHash, ⟨Sample.pay.txid, 0⟩,
        5000, none, 7, false, some ⟨Sample.spend.txid, 8, none, false, 4500⟩⟩ := by decide +kernel
  rw [hread] at hdecode
  cases hdecode
  obtain ⟨tx, htx, htxid, hpayments, -⟩ := hmirror _ rfl
  have hspend : tx = Sample.spend := hids.txid tx Sample.spend htx List.mem_cons_self htxid
  exact ⟨_, _, ix, hist, hcalls, hrows, hids, hspends, hspend ▸ hpayments⟩

end Indexer

end WalletLedger
