import WalletLedger.Proofs.Watching

/-!
# Which transactions a scanner has to hand over

A scanner asks which scripts are of interest before it hands over a transaction. The scripts of interest
are those that addresses are matched on, and an output that pays a key is matched on another script than
the transaction has. So to ask for the script that an output is staged under is to find every deposit to
an address that exists, and nothing else. To ask for the script as the transaction has it is to miss the
payments to a key.

* `Script.normal_eq_self_iff`: which scripts are matched as they are.
* `Indexer.isOfInterest_iff`, `Indexer.isOfInterest_redeem`: which scripts are of interest.
* `Indexer.Records`: an output has its row at an address that existed.
* `Indexer.interest_finds_deposits`: what asking finds, and what it misses.
-/

namespace WalletLedger

/-- A script is matched as it is unless it pays a key. -/
theorem Script.normal_eq_self_iff {s : Script} : s.normal = s ↔ s.pushedKey? = none := by
  cases h : s.pushedKey? with
  | none => simp [normal, h]
  | some encoding =>
    have hnormal : s.normal = payToKeyHash encoding := by simp [normal, h]
    refine iff_of_false (fun hself => ?_) (Option.some_ne_none encoding)
    rw [← hself, hnormal, pushedKey?_payToKeyHash] at h
    cases h

/-- An output is staged under the normal form of its script. -/
theorem Batch.script_of_mem_ofTransaction {tx : Transaction} {time : UInt32} {block : Option BlockRef}
    {o : StagedOutput} (h : o ∈ (ofTransaction tx time block).outputs) :
    o.script = o.redeem.normal := by
  obtain ⟨⟨output, vout⟩, -, rfl⟩ := List.mem_map.1 h
  rfl

namespace Store

variable {s s₀ t : Store} {scope : Scope} {outputs : List StagedOutput}

/-- No address is matched on a payment to a key. -/
theorem WellFormed.pushedKey?_toKeyHash (hs : s.WellFormed) {a : Address} (ha : a ∈ s.addresses) :
    a.scripts.toKeyHash.pushedKey? = none := by
  obtain ⟨account, -, -, -, hderive⟩ := hs.address_owner a ha
  obtain ⟨-, -, key, hscripts⟩ := account.scripts_derive hderive
  rw [hscripts]
  exact Script.pushedKey?_payToKeyHash _

/-- A due deposit has its row, whether it was confirmed or not. -/
theorem Deposited.exists_row (h : Deposited scope outputs s₀ t) (hs₀ : s₀.WellFormed) {d : Deposit}
    (hd : t.IsDue scope outputs d) : ∃ r ∈ t.ledger, r.key = d.key := by
  cases hconf : s₀.isConfirmed d.key with
  | true =>
    have hany := hconf
    rw [hs₀.isConfirmed_eq, Option.any_eq_true] at hany
    obtain ⟨r, hrow, -⟩ := hany
    have hkept := (h.kept d.key (.inl hconf)).trans hrow
    exact ⟨r, mem_of_row? hkept, key_of_row? hkept⟩
  | false =>
    obtain ⟨d', -, -, hrow⟩ := h.recorded d hd hconf
    exact ⟨_, mem_of_row? hrow, rfl⟩

/-- The row of an address has its script. -/
theorem WellFormed.script_eq (hs : s.WellFormed) {a : Address} {r : LedgerRow} (ha : a ∈ s.addresses)
    (hr : r ∈ s.ledger) (hid : r.key.address = a.id) : r.deposit.script = a.scripts.toKeyHash := by
  obtain ⟨b, hb, hbid, hscript⟩ := hs.row_address r hr
  rw [List.inj_on_of_nodup_map hs.address_ids ha hb (hid.symm.trans hbid.symm), hscript]

end Store

namespace Indexer

open Store

variable {ix ix' : Indexer} {tx : Transaction} {time : UInt32} {outcome : BatchOutcome}

/-- An output has its row at an address that existed before. -/
def Records (ix ix' : Indexer) (o : StagedOutput) : Prop :=
  ∃ a ∈ ix.store.addresses, ∃ r ∈ ix'.store.ledger, r.IsFor a.id o ∧ r.deposit.script = o.script

/-- The scripts of interest are those that the addresses are matched on. -/
theorem isOfInterest_iff (hreach : ix.Reachable) {script : Script} :
    ix.isOfInterest script = true ↔ ∃ a ∈ ix.store.addresses, a.scripts.toKeyHash = script := by
  obtain ⟨network, config, calls, rfl⟩ := hreach.exists_run
  have hwatching : (run network config calls).Watching := (watching_fresh network config).afterAll
  rw [isOfInterest, WatchList.contains_iff, hwatching script, payScripts, List.mem_map]

/-- The script of an output is of interest as it is if it is so as it is matched, and pays no key. -/
theorem isOfInterest_redeem (hreach : ix.Reachable) {redeem : Script} :
    ix.isOfInterest redeem = true ↔
      ix.isOfInterest redeem.normal = true ∧ redeem.pushedKey? = none := by
  constructor
  · intro h
    obtain ⟨a, ha, hscript⟩ := (isOfInterest_iff hreach).1 h
    have hnone := hreach.wellFormed.pushedKey?_toKeyHash ha
    rw [hscript] at hnone
    rw [Script.normal_eq_self_iff.2 hnone]
    exact ⟨h, hnone⟩
  · rintro ⟨h, hnone⟩
    rwa [Script.normal_eq_self_iff.2 hnone] at h

/-- What a row is recorded for is of interest. -/
theorem isOfInterest_of_records (hreach : ix.Reachable)
    (h : ix.processTransaction tx time = .ok (outcome, ix')) {o : StagedOutput}
    (hrecords : ix.Records ix' o) : ix.isOfInterest o.script = true := by
  obtain ⟨a, ha, r, hr, hfor, hscript⟩ := hrecords
  obtain ⟨created, hadds, -⟩ := adds_of_processBatch h
  have hs' := wellFormed_applyBatch hreach.wellFormed (applyBatch_of_processBatch h).1
  have ha' : a ∈ ix'.store.addresses := by
    rw [hadds.addresses]
    exact List.mem_append_left _ ha
  exact (isOfInterest_iff hreach).2 ⟨a, ha, (hs'.script_eq ha' hr hfor.address).symm.trans hscript⟩

/-- What is of interest is recorded, if all wallets take part. -/
theorem records_of_isOfInterest (hreach : ix.Reachable)
    (h : ix.processTransaction tx time = .ok (outcome, ix')) (hmode : ix.config.mode = .allWallets)
    {o : StagedOutput} (ho : o ∈ (Batch.ofTransaction tx time none).outputs)
    (hinterest : ix.isOfInterest o.script = true) : ix.Records ix' o := by
  obtain ⟨a, ha, hscript⟩ := (isOfInterest_iff hreach).1 hinterest
  have hs := hreach.wellFormed
  obtain ⟨happly, -⟩ := applyBatch_of_processBatch h
  obtain ⟨found, t, names, hrounds, hmoved⟩ := parts_of_applyBatch happly
  have ht := wellFormed_rounds hs hrounds
  obtain ⟨hwallets, haddresses, -⟩ := frame_rounds hrounds
  obtain ⟨-, -, hpairs⟩ := frame_moved hmoved
  have hat : a ∈ t.addresses := by
    rw [haddresses]
    exact List.mem_append_left _ ha
  have hdue : t.IsDue (Scope.ofBatch ix.config none) (Batch.ofTransaction tx time none).outputs
      (.ofOutput a.id o) := by
    refine ⟨o, ho, a, hat, hscript, ?_, rfl⟩
    rw [inScope_congr hwallets, inScope_iff]
    obtain ⟨w, hw, hid⟩ := hs.exists_wallet ha
    refine ⟨w, hw, hid, fun name hname => ?_, nofun⟩
    rw [hmode] at hname
    cases hname
  obtain ⟨r, hr, hkey⟩ := (deposited_of_rounds hs hs (Matched.init _) hrounds).exists_row hs hdue
  obtain ⟨r', hr', hkey', hside⟩ := exists_of_deposits_eq hpairs hr
  refine ⟨a, ha, r', hr', LedgerRow.isFor_iff.2 (hkey'.trans hkey), ?_⟩
  rw [hside, ht.script_eq hat hr (congrArg (·.address) hkey), hscript]

/-- Without an output of interest there is nothing to match. -/
theorem newDeposits_eq_nil (hreach : ix.Reachable) {scope : Scope} {outputs : List StagedOutput}
    (hnone : ∀ o ∈ outputs, ix.isOfInterest o.script = false) :
    ix.store.newDeposits scope outputs [] = [] := by
  rw [List.eq_nil_iff_forall_not_mem]
  intro d hd
  obtain ⟨⟨o, ho, a, ha, hscript, -⟩, -⟩ := isDue_of_mem_newDeposits hd
  have hinterest := (isOfInterest_iff hreach).2 ⟨a, ha, hscript⟩
  rw [hnone o ho] at hinterest
  cases hinterest

end Indexer

namespace Sample

/-- A transaction that pays the key of the first receiving address. -/
def payKey : Transaction := ⟨1, [⟨⟨Hash256.zero, 0⟩, [], 0⟩], [⟨5000, receiving.toKey⟩], 0⟩

theorem normal_toKey : receiving.toKey.pushedKey? ≠ none ∧
    Script.normal receiving.toKey = receiving.toKeyHash := by
  decide +kernel

theorem process_payKey : ∃ answer, (opened unbuffered).processTransaction payKey 7 = .ok answer := by
  have hok : ((opened unbuffered).processTransaction payKey 7).toBool = true := by decide +kernel
  cases h : (opened unbuffered).processTransaction payKey 7 with
  | ok answer => exact ⟨answer, rfl⟩
  | error e =>
    rw [h] at hok
    cases hok

end Sample

namespace Indexer

open Store

variable {ix ix' : Indexer} {tx : Transaction} {time : UInt32} {outcome : BatchOutcome}

/-- **Asking for the staged script finds every deposit to an address that exists**, and no other output.
For a transaction of the mempool: an output has its row at such an address only if the script it is staged
under is of interest, and if all wallets take part it has one whenever this is so. The script as the
transaction has it is of interest if also it pays no key. So a transaction none of whose outputs is staged
under a script of interest can be left out: it records nothing and leads to no address. -/
theorem interest_finds_deposits (hreach : ix.Reachable)
    (h : ix.processTransaction tx time = .ok (outcome, ix')) :
    (∀ o ∈ (Batch.ofTransaction tx time none).outputs, ix.Records ix' o →
      ix.isOfInterest o.script = true) ∧
    (ix.config.mode = .allWallets → ∀ o ∈ (Batch.ofTransaction tx time none).outputs,
      ix.isOfInterest o.script = true → ix.Records ix' o) ∧
    (∀ o ∈ (Batch.ofTransaction tx time none).outputs, ix.isOfInterest o.redeem = true ↔
      ix.isOfInterest o.script = true ∧ o.redeem.pushedKey? = none) ∧
    ((∀ o ∈ (Batch.ofTransaction tx time none).outputs, ix.isOfInterest o.script = false) →
      outcome.deposits = 0 ∧ outcome.newScripts = [] ∧
      ix'.store.ledger.map (fun r => (r.key, r.deposit)) =
        ix.store.ledger.map fun r => (r.key, r.deposit)) := by
  refine ⟨fun o _ => isOfInterest_of_records hreach h,
    fun hmode o ho => records_of_isOfInterest hreach h hmode ho, fun o ho => ?_, fun hnone => ?_⟩
  · rw [Batch.script_of_mem_ofTransaction ho]
    exact isOfInterest_redeem hreach
  · obtain ⟨found, t, names, hrounds, hmoved, rfl⟩ :=
      applyBatch_eq_ok_iff.1 (applyBatch_of_processBatch h).1
    obtain ⟨rfl, rfl⟩ := hrounds.eq_of_nil (newDeposits_eq_nil hreach hnone)
    exact ⟨rfl, rfl, (frame_moved hmoved).2.2⟩

/-- A payment to the key of an address is recorded, and its script is not of interest. -/
theorem interest_finds_deposits_paid : ∃ o ∈ (Batch.ofTransaction Sample.payKey 7 none).outputs,
    ∃ outcome ix', (Sample.opened Sample.unbuffered).processTransaction Sample.payKey 7 =
        .ok (outcome, ix') ∧
      (Sample.opened Sample.unbuffered).Records ix' o ∧
      (Sample.opened Sample.unbuffered).isOfInterest o.redeem = false := by
  obtain ⟨past, hist, -⟩ := Sample.history Sample.unbuffered
  have hreach : (Sample.opened Sample.unbuffered).Reachable := ⟨_, past, hist⟩
  obtain ⟨hpushed, hnormal⟩ := Sample.normal_toKey
  obtain ⟨⟨outcome, ix'⟩, h⟩ := Sample.process_payKey
  obtain ⟨-, hrecords, hredeem, -⟩ := interest_finds_deposits hreach h
  obtain ⟨o, ho, hscript⟩ : ∃ o ∈ (Batch.ofTransaction Sample.payKey 7 none).outputs,
      o.redeem = Sample.receiving.toKey := ⟨_, List.mem_cons_self, rfl⟩
  have hstaged : o.script = Sample.receiving.toKeyHash := by
    rw [Batch.script_of_mem_ofTransaction ho, hscript, hnormal]
  have hinterest : (Sample.opened Sample.unbuffered).isOfInterest o.script = true :=
    (isOfInterest_iff hreach).2 ⟨_, List.mem_cons_self, hstaged.symm⟩
  refine ⟨o, ho, outcome, ix', h, hrecords rfl o ho hinterest, ?_⟩
  rw [Bool.eq_false_iff]
  intro hwatched
  exact hpushed (hscript ▸ ((hredeem o ho).1 hwatched).2)

end Indexer

end WalletLedger
