import WalletLedger.Proofs.WellFormed

/-!
# What a batch deposits

Matching repeats while it grows pools, so what it records is stated over the addresses it ends with:
every staged output that pays one of them in scope has its row, and no other row has changed.

* `Indexer.TakesPart`, `LedgerRow.IsFor`, `DepositSide.States`: which wallets and rows an output
  concerns, and what a row says of it.
* `Store.Matched`: what the rounds so far have done to the ledger, the invariant of matching.
* `Store.Deposited`: what all rounds together have done.
* `Indexer.deposits_exact`: a batch records exactly the deposits due at its end.
-/

namespace WalletLedger

/-- Staged outputs of one outpoint are one output. -/
def Batch.OutputsAgree (b : Batch) : Prop :=
  ∀ o ∈ b.outputs, ∀ o' ∈ b.outputs, o.outpoint = o'.outpoint → o = o'

/-- Staged spends of one output are one spend. -/
def Batch.SpendsAgree (b : Batch) : Prop :=
  ∀ sp ∈ b.spends, ∀ sp' ∈ b.spends, sp.prevOut = sp'.prevOut → sp = sp'

instance (b : Batch) : Decidable b.OutputsAgree :=
  inferInstanceAs (Decidable (∀ o ∈ b.outputs, ∀ o' ∈ b.outputs, _ → o = o'))

instance (b : Batch) : Decidable b.SpendsAgree :=
  inferInstanceAs (Decidable (∀ sp ∈ b.spends, ∀ sp' ∈ b.spends, _ → sp = sp'))

/-- A batch that says one thing of every outpoint. -/
structure Batch.Consistent (b : Batch) : Prop where
  outputs : b.OutputsAgree
  spends : b.SpendsAgree

/-- A row is kept for an output that pays an address. -/
structure LedgerRow.IsFor (r : LedgerRow) (address : AddressId) (o : StagedOutput) : Prop where
  address : r.key.address = address
  redeem : r.key.redeem = o.redeem
  txid : r.key.txid = o.outpoint.txid.bytes
  vout : r.key.vout = o.outpoint.vout

/-- A deposit says what the output says. -/
structure DepositSide.States (side : DepositSide) (o : StagedOutput) : Prop where
  script : side.script = o.script
  value : side.value = o.value
  height : side.height = o.block.map (·.height)
  hash : side.hash = o.block.map (·.hash.bytes)
  time : side.time = o.time
  coinbase : side.coinbase = o.coinbase

/-- A wallet takes part in a batch: a mode may name it, and a header asks for its tip. -/
def Indexer.TakesPart (ix : Indexer) (header : Option BatchHeader) (wallet : Int) : Prop :=
  ∃ w ∈ ix.store.wallets, w.id = wallet ∧
    (∀ name, ix.config.mode = .singleWallet name → w.name = name) ∧
    ∀ header', header = some header' → w.hash = header'.parent.bytes

theorem LedgerRow.isFor_iff {r : LedgerRow} {address : AddressId} {o : StagedOutput} :
    r.IsFor address o ↔ r.key = (Deposit.ofOutput address o).key := by
  constructor
  · rintro ⟨haddress, hredeem, htxid, hvout⟩
    simp only [Deposit.ofOutput, ← haddress, ← hredeem, ← htxid, ← hvout]
  · intro hkey
    obtain ⟨key, deposit, spend⟩ := r
    cases hkey
    exact ⟨rfl, rfl, rfl, rfl⟩

/-- A mode admits every wallet, or the one that it names. -/
theorem BatchMode.admits_iff {mode : BatchMode} {wallet : String} :
    mode.walletName.all (· == wallet) = true ↔
      ∀ name, mode = .singleWallet name → wallet = name := by
  cases mode with
  | allWallets => simp [BatchMode.walletName]
  | singleWallet name =>
    simp only [BatchMode.walletName, Option.all_some, beq_iff_eq, BatchMode.singleWallet.injEq]
    constructor
    · intro h name' hname
      rw [← hname, h]
    · intro h
      exact (h name rfl).symm

theorem Indexer.inScope_iff {ix : Indexer} {header : Option BatchHeader} {wallet : Int} :
    ix.store.inScope (Scope.ofBatch ix.config header) wallet = true ↔ ix.TakesPart header wallet := by
  have hparent : ∀ w : WalletRow, (header.map (·.parent)).all (·.bytes == w.hash) = true ↔
      ∀ header', header = some header' → w.hash = header'.parent.bytes := by
    intro w
    cases header with
    | none => simp
    | some header =>
      simp only [Option.map_some, Option.all_some, beq_iff_eq, Option.some.injEq]
      constructor
      · intro h header' heq
        rw [← heq, h]
      · intro h
        exact (h header rfl).symm
  unfold Store.inScope Scope.covers Scope.ofBatch TakesPart
  simp only [List.any_eq_true, Bool.and_eq_true, beq_iff_eq, BatchMode.admits_iff, hparent]

namespace Store

variable {s s' s₀ t : Store} {staged : Batch → Prop} {scope : Scope} {batch : Batch}
variable {outputs : List StagedOutput} {d : Deposit} {k : LedgerKey}

/-! ## The ledger by key -/

/-- The ledger row of a key. -/
def row? (s : Store) (k : LedgerKey) : Option LedgerRow := s.ledger.find? (·.key == k)

/-- The spend side recorded under a key. -/
def spendAt (s : Store) (k : LedgerKey) : SpendSide := ((s.row? k).map (·.spend)).getD .unspent

theorem key_of_row? {r : LedgerRow} (h : s.row? k = some r) : r.key = k := by
  simpa using List.find?_some h

theorem mem_of_row? {r : LedgerRow} (h : s.row? k = some r) : r ∈ s.ledger :=
  List.mem_of_find?_eq_some h

theorem row?_eq_none_iff : s.row? k = none ↔ ∀ r ∈ s.ledger, r.key ≠ k := by
  unfold row?
  rw [List.find?_eq_none]
  simp

theorem WellFormed.row?_eq_some_iff (hs : s.WellFormed) {r : LedgerRow} :
    s.row? k = some r ↔ r ∈ s.ledger ∧ r.key = k := by
  constructor
  · intro h
    exact ⟨mem_of_row? h, key_of_row? h⟩
  · rintro ⟨hr, hk⟩
    cases hrow : s.row? k with
    | none => exact absurd hk (row?_eq_none_iff.1 hrow r hr)
    | some r' =>
      have hk' := (key_of_row? hrow).trans hk.symm
      rw [hs.eq_of_key (mem_of_row? hrow) hr hk']

theorem WellFormed.isConfirmed_eq (hs : s.WellFormed) (k : LedgerKey) :
    s.isConfirmed k = (s.row? k).any (·.deposit.isConfirmed) := by
  rw [Bool.eq_iff_iff]
  unfold isConfirmed
  rw [List.any_eq_true, Option.any_eq_true]
  constructor
  · rintro ⟨r, hr, h⟩
    rw [Bool.and_eq_true, beq_iff_eq] at h
    exact ⟨r, hs.row?_eq_some_iff.2 ⟨hr, h.1⟩, h.2⟩
  · rintro ⟨r, hrow, h⟩
    obtain ⟨hr, hk⟩ := hs.row?_eq_some_iff.1 hrow
    refine ⟨r, hr, ?_⟩
    rw [hk, h, beq_self_eq_true, Bool.and_true]

/-! ## One deposit -/

theorem row?_record_of_ne (s : Store) {d : Deposit} (hk : k ≠ d.key) :
    (s.record d).2.row? k = s.row? k := by
  rcases s.record_cases d with ⟨-, heq⟩ | ⟨row, -, -, -, heq⟩ | ⟨row, -, -, -, heq⟩
  · rw [heq]
    unfold row?
    rw [List.find?_append]
    have hne : (d.key == k) = false := by simpa using hk.symm
    simp [hne]
  · rw [heq]
    unfold row?
    simp only
    induction s.ledger with
    | nil => rfl
    | cons r rest ih =>
      rw [List.map_cons, List.find?_cons, List.find?_cons, ih]
      by_cases hr : r.key = d.key
      · have hne : (d.key == k) = false := by simpa using hk.symm
        simp [hr, hne]
      · simp [hr]
  · rw [heq]

/-- Recording an unconfirmed deposit sets the deposit side of its row and keeps the spend side. -/
theorem row?_record_self (hs : s.WellFormed) (hs' : (s.record d).2.WellFormed)
    (hd : s.isConfirmed d.key = false) :
    (s.record d).2.row? d.key = some ⟨d.key, d.side, s.spendAt d.key⟩ := by
  rw [hs'.row?_eq_some_iff]
  refine ⟨?_, rfl⟩
  rcases s.record_cases d with ⟨hfresh, heq⟩ | ⟨row, hrow, hkey, -, heq⟩ | ⟨row, hrow, hkey, hconf, heq⟩
  · have hspend : s.spendAt d.key = .unspent := by
      rw [spendAt, row?_eq_none_iff.2 hfresh]
      rfl
    rw [heq, hspend]
    exact List.mem_append_right _ List.mem_cons_self
  · have hspend : s.spendAt d.key = row.spend := by
      rw [spendAt, hs.row?_eq_some_iff.2 ⟨hrow, hkey⟩]
      rfl
    rw [heq, hspend]
    refine List.mem_map.2 ⟨row, hrow, ?_⟩
    rw [if_pos hkey, hkey]
  · -- a row that is not unconfirmed is confirmed
    have hrow' := hs.row?_eq_some_iff.2 ⟨hrow, hkey⟩
    rw [hs.isConfirmed_eq, hrow', Option.any_some] at hd
    rw [(hs.rows row hrow).isUnconfirmed_eq, hd] at hconf
    cases hconf

/-! ## A round of deposits -/

theorem nodup_keys_unapplied (applied : List LedgerKey) (ds : List Deposit) :
    ((unapplied applied ds).map (·.key)).Nodup := by
  induction ds generalizing applied with
  | nil => exact List.nodup_nil
  | cons e ds ih =>
    unfold unapplied
    split
    · exact ih applied
    · rw [List.map_cons, List.nodup_cons]
      refine ⟨?_, ih _⟩
      intro hmem
      obtain ⟨e', he', hk⟩ := List.mem_map.1 hmem
      exact (mem_of_mem_unapplied he').2 (hk ▸ List.mem_cons_self)

theorem mem_applied_or_unapplied {applied : List LedgerKey} {ds : List Deposit} (h : d ∈ ds) :
    d.key ∈ applied ++ (unapplied applied ds).map (·.key) := by
  induction ds generalizing applied with
  | nil => cases h
  | cons e ds ih =>
    unfold unapplied
    split
    · rename_i he
      rcases List.mem_cons.1 h with rfl | h
      · exact List.mem_append_left _ he
      · exact ih h
    · rcases List.mem_cons.1 h with rfl | h
      · exact List.mem_append_right _ List.mem_cons_self
      · have hmem : d.key ∈ (e.key :: applied) ++ (unapplied (e.key :: applied) ds).map (·.key) :=
          ih h
        simp only [List.cons_append, List.mem_cons, List.mem_append, List.map_cons] at hmem ⊢
        rcases hmem with h | h | h
        · exact .inr (.inl h)
        · exact .inl h
        · exact .inr (.inr h)

theorem row?_recordAll_of_ne {ds : List Deposit} (hk : ∀ d ∈ ds, d.key ≠ k) :
    (recordAll ds s).2.row? k = s.row? k := by
  induction ds generalizing s with
  | nil => rfl
  | cons e ds ih =>
    simp only [recordAll]
    rw [ih fun d hd => hk d (List.mem_cons_of_mem _ hd)]
    exact s.row?_record_of_ne (hk e List.mem_cons_self).symm

/-- Deposits of different keys, none confirmed, are all recorded. -/
theorem row?_recordAll_of_mem {ds : List Deposit} (hs : s.WellFormed)
    (hdue : ∀ d ∈ ds, s.IsDue scope outputs d) (hconf : ∀ d ∈ ds, s.isConfirmed d.key = false)
    (hnodup : (ds.map (·.key)).Nodup) (hd : d ∈ ds) :
    (recordAll ds s).2.row? d.key = some ⟨d.key, d.side, s.spendAt d.key⟩ := by
  induction ds generalizing s with
  | nil => cases hd
  | cons e ds ih =>
    rw [List.map_cons, List.nodup_cons] at hnodup
    have hs' : (s.record e).2.WellFormed := wellFormed_record hs (hdue e List.mem_cons_self)
    have hne : ∀ d ∈ ds, d.key ≠ e.key := by
      intro d hd hk
      exact hnodup.1 (hk ▸ List.mem_map_of_mem hd)
    simp only [recordAll]
    -- the other deposits have other keys and leave the row alone
    rcases List.mem_cons.1 hd with rfl | hd
    · rw [row?_recordAll_of_ne hne]
      exact row?_record_self hs hs' (hconf d List.mem_cons_self)
    · have hrow := s.row?_record_of_ne (hne d hd)
      have hspend : (s.record e).2.spendAt d.key = s.spendAt d.key := by rw [spendAt, hrow, spendAt]
      rw [← hspend]
      refine ih hs' ?_ ?_ hnodup.2 hd
      · intro d' hd'
        refine (hdue d' (List.mem_cons_of_mem _ hd')).mono (wallets_record s e) fun a ha => ?_
        rw [addresses_record]
        exact ha
      · intro d' hd'
        rw [hs'.isConfirmed_eq, s.row?_record_of_ne (hne d' hd'), ← hs.isConfirmed_eq]
        exact hconf d' (List.mem_cons_of_mem _ hd')

/-! ## All rounds -/

/-- What the rounds that applied some keys have done to the ledger of `s₀`. -/
structure Matched (scope : Scope) (outputs : List StagedOutput) (s₀ : Store)
    (applied : List LedgerKey) (s : Store) : Prop where
  recorded : ∀ k ∈ applied, s₀.isConfirmed k = false ∧ ∃ d, s.IsDue scope outputs d ∧ d.key = k ∧
    s.row? k = some ⟨k, d.side, s₀.spendAt k⟩
  kept : ∀ k, k ∉ applied → s.row? k = s₀.row? k

/-- What matching that went from `s₀` to `t` has done to the ledger. -/
structure Deposited (scope : Scope) (outputs : List StagedOutput) (s₀ t : Store) : Prop where
  recorded : ∀ d, t.IsDue scope outputs d → s₀.isConfirmed d.key = false →
    ∃ d', t.IsDue scope outputs d' ∧ d'.key = d.key ∧
      t.row? d.key = some ⟨d.key, d'.side, s₀.spendAt d.key⟩
  kept : ∀ k, s₀.isConfirmed k = true ∨ (∀ d, t.IsDue scope outputs d → d.key ≠ k) →
    t.row? k = s₀.row? k

theorem Matched.init (s : Store) : Matched scope outputs s [] s where
  recorded := by intro k hk; cases hk
  kept := by intro k _; rfl

/-- A key outside `applied` is confirmed only if it was at the start. -/
theorem Matched.isConfirmed_eq {applied : List LedgerKey} (hm : Matched scope outputs s₀ applied s)
    (hs₀ : s₀.WellFormed) (hs : s.WellFormed) (hk : k ∉ applied) :
    s.isConfirmed k = s₀.isConfirmed k := by
  rw [hs.isConfirmed_eq, hs₀.isConfirmed_eq, hm.kept k hk]

/-- **One round** records the new deposits and extends pools; the ledger is then matched for their
keys as well. -/
theorem Matched.round {buffer : UInt64} {pools : List AddressGroup} {applied : List LedgerKey}
    {new : List Deposit} {created : List Address} (hm : Matched scope outputs s₀ applied s)
    (hs₀ : s₀.WellFormed) (hs : s.WellFormed) (hnew : new = s.newDeposits scope outputs applied)
    (hextend : extendPools buffer (s.touchedPools pools new) (recordAll new s).2 = .ok (created, t)) :
    Matched scope outputs s₀ (applied ++ new.map (·.key)) t := by
  have hround : ∀ d ∈ new, s.IsDue scope outputs d ∧ s.isConfirmed d.key = false ∧
      d.key ∉ applied := by
    intro d hd
    rw [hnew] at hd
    exact isDue_of_mem_newDeposits hd
  have hnodup : (new.map (·.key)).Nodup := by
    rw [hnew]
    exact nodup_keys_unapplied applied _
  obtain ⟨hwallets, haddresses, hledger, -⟩ := frame_round hextend
  have hrow : ∀ k, t.row? k = (recordAll new s).2.row? k := by
    intro k
    rw [row?, row?, hledger]
  have hmono : ∀ d, s.IsDue scope outputs d → t.IsDue scope outputs d := by
    intro d hd
    refine hd.mono hwallets fun a ha => ?_
    rw [haddresses]
    exact List.mem_append_left _ ha
  constructor
  · intro k hk
    by_cases hka : k ∈ applied
    · -- a key of an earlier round is not recorded again
      obtain ⟨hconf, d, hd, hdk, hrowk⟩ := hm.recorded k hka
      refine ⟨hconf, d, hmono d hd, hdk, ?_⟩
      rw [hrow, row?_recordAll_of_ne, hrowk]
      intro e he hek
      exact (hround e he).2.2 (hek ▸ hka)
    · have hkn : k ∈ new.map (·.key) := (List.mem_append.1 hk).resolve_left hka
      obtain ⟨d, hd, rfl⟩ := List.mem_map.1 hkn
      have hspend : s.spendAt d.key = s₀.spendAt d.key := by rw [spendAt, hm.kept _ hka, spendAt]
      refine ⟨?_, d, hmono d (hround d hd).1, rfl, ?_⟩
      · rw [← hm.isConfirmed_eq hs₀ hs hka]
        exact (hround d hd).2.1
      · rw [hrow, ← hspend]
        exact row?_recordAll_of_mem hs (fun e he => (hround e he).1) (fun e he => (hround e he).2.1)
          hnodup hd
  · intro k hk
    rw [List.mem_append, not_or] at hk
    rw [hrow, row?_recordAll_of_ne, hm.kept k hk.1]
    intro d hd hdk
    exact hk.2 (hdk ▸ List.mem_map_of_mem hd)

/-- When nothing is left to record, matching has done what it should. -/
theorem Matched.deposited {applied : List LedgerKey} (hm : Matched scope outputs s₀ applied t)
    (hs₀ : s₀.WellFormed) (ht : t.WellFormed)
    (hnone : ∀ d ∈ t.deposits scope outputs, d.key ∈ applied) : Deposited scope outputs s₀ t := by
  constructor
  · intro d hd hconf
    have happlied : d.key ∈ applied := by
      by_cases hk : d.key ∈ applied
      · exact hk
      · refine hnone d (mem_deposits.2 ⟨hd, ?_⟩)
        rw [hm.isConfirmed_eq hs₀ ht hk]
        exact hconf
    exact (hm.recorded d.key happlied).2
  · intro k hk
    refine hm.kept k fun happlied => ?_
    obtain ⟨hconf, d, hd, hdk, -⟩ := hm.recorded k happlied
    rcases hk with hk | hk
    · rw [hconf] at hk
      cases hk
    · exact hk d hd hdk

theorem isConfirmed_record_of_ne (hk : k ≠ d.key) :
    (s.record d).2.isConfirmed k = s.isConfirmed k := by
  unfold isConfirmed
  rcases s.record_cases d with ⟨-, heq⟩ | ⟨row, -, -, -, heq⟩ | ⟨row, -, -, -, heq⟩
  · have hkey : (d.key == k) = false := beq_eq_false_iff_ne.2 hk.symm
    rw [heq, List.any_append, List.any_cons, List.any_nil, hkey, Bool.false_and, Bool.false_or,
      Bool.or_false]
  · rw [heq, List.any_map]
    refine List.any_congr rfl fun r => ?_
    simp only [Function.comp_apply]
    by_cases hr : r.key = d.key
    · have hkey : (r.key == k) = false := by
        rw [hr]
        exact beq_eq_false_iff_ne.2 hk.symm
      rw [if_pos hr, hkey, Bool.false_and, Bool.false_and]
    · rw [if_neg hr]
  · rw [heq]

theorem isConfirmed_recordAll_of_ne {ds : List Deposit} (hk : ∀ d ∈ ds, k ≠ d.key) :
    (recordAll ds s).2.isConfirmed k = s.isConfirmed k := by
  induction ds generalizing s with
  | nil => rfl
  | cons d ds ih =>
    simp only [recordAll]
    rw [ih fun e he => hk e (List.mem_cons_of_mem _ he),
      isConfirmed_record_of_ne (hk d List.mem_cons_self)]

/-- Where there is nothing new, all deposits are applied. -/
theorem mem_applied_of_newDeposits {applied : List LedgerKey}
    (hnone : s.newDeposits scope outputs applied = []) :
    ∀ d ∈ s.deposits scope outputs, d.key ∈ applied := by
  intro d hd
  have hmem : d.key ∈ applied ++ (unapplied applied (s.deposits scope outputs)).map (·.key) :=
    mem_applied_or_unapplied hd
  rw [newDeposits] at hnone
  rw [hnone, List.map_nil, List.append_nil] at hmem
  exact hmem

/-- After a round that extends no pool there is nothing new. -/
theorem newDeposits_of_quiet {buffer : UInt64} {pools : List AddressGroup} {applied : List LedgerKey}
    {new : List Deposit} (hnew : new = s.newDeposits scope outputs applied)
    (h : extendPools buffer (s.touchedPools pools new) (recordAll new s).2 = .ok ([], t)) :
    t.newDeposits scope outputs (applied ++ new.map (·.key)) = [] := by
  rw [List.eq_nil_iff_forall_not_mem]
  intro d hd
  obtain ⟨hdue, hconf, hfresh⟩ := isDue_of_mem_newDeposits hd
  obtain ⟨hwallets, haddresses, hledger, -, -⟩ := frame_round h
  rw [List.append_nil] at haddresses
  -- the deposit was due before the round, and its row was not touched
  have hdue' : s.IsDue scope outputs d := hdue.mono hwallets.symm fun a ha => haddresses ▸ ha
  have hne : ∀ e ∈ new, d.key ≠ e.key := fun e he hkey =>
    hfresh (List.mem_append_right _ (List.mem_map.2 ⟨e, he, hkey.symm⟩))
  have hconf' : s.isConfirmed d.key = false := by
    rw [← isConfirmed_recordAll_of_ne hne, ← hconf, isConfirmed, isConfirmed, hledger]
  have hmem : d.key ∈ applied ++ (unapplied applied (s.deposits scope outputs)).map (·.key) :=
    mem_applied_or_unapplied (mem_deposits.2 ⟨hdue', hconf'⟩)
  rw [newDeposits] at hnew
  rw [← hnew] at hmem
  exact hfresh hmem

/-- **Matching from an empty list of applied keys** does what it should. -/
theorem deposited_of_rounds {buffer : UInt64} {pools : List AddressGroup}
    {applied : List LedgerKey} {found : DepositOutcome} (hs₀ : s₀.WellFormed) (hs : s.WellFormed)
    (hm : Matched scope outputs s₀ applied s)
    (h : Rounds scope buffer outputs pools applied s found t) : Deposited scope outputs s₀ t := by
  induction h with
  | @stop applied s hnone => exact hm.deposited hs₀ hs (mem_applied_of_newDeposits hnone)
  | @last applied s t new hnew hextend =>
    have ht := wellFormed_round hs hnew hextend
    have hm' := hm.round hs₀ hs hnew hextend
    exact hm'.deposited hs₀ ht (mem_applied_of_newDeposits (newDeposits_of_quiet hnew hextend))
  | round hnew hextend _ _ ih =>
    exact ih (wellFormed_round hs hnew hextend) (hm.round hs₀ hs hnew hextend)

/-- If the staged outputs agree, a key belongs to one deposit at most. -/
theorem IsDue.eq_of_key {d' : Deposit} (hb : batch.OutputsAgree)
    (hd : s.IsDue scope batch.outputs d) (hd' : s.IsDue scope batch.outputs d')
    (hk : d.key = d'.key) : d = d' := by
  obtain ⟨o, ho, a, -, -, -, rfl⟩ := hd
  obtain ⟨o', ho', a', -, -, -, rfl⟩ := hd'
  simp only [Deposit.ofOutput, LedgerKey.mk.injEq] at hk
  obtain ⟨haddress, -, htxid, hvout⟩ := hk
  have hpoint : o.outpoint = o'.outpoint := OutPoint.eq_of_bytes htxid hvout
  rw [hb o ho o' ho' hpoint, haddress]

/-! ## What matching leaves -/

/-- A due deposit has its row: as it was if it was confirmed, and as it is due otherwise. -/
theorem Deposited.row_of_isDue (h : Deposited scope batch.outputs s₀ t) (hs₀ : s₀.WellFormed)
    (hb : batch.OutputsAgree) (hd : t.IsDue scope batch.outputs d) :
    ∃ r ∈ t.ledger, r.key = d.key ∧
      ((∃ r₀ ∈ s₀.ledger, r₀.key = d.key ∧ r₀.deposit.isConfirmed = true ∧ r.deposit = r₀.deposit) ∨
        (s₀.isConfirmed d.key = false ∧ r.deposit = d.side)) := by
  by_cases hconf : s₀.isConfirmed d.key = true
  · have hany := hconf
    rw [hs₀.isConfirmed_eq, Option.any_eq_true] at hany
    obtain ⟨r₀, hrow₀, hr₀⟩ := hany
    have hrow := (h.kept d.key (.inl hconf)).trans hrow₀
    have hkey := key_of_row? hrow₀
    exact ⟨r₀, mem_of_row? hrow, hkey, .inl ⟨r₀, mem_of_row? hrow₀, hkey, hr₀, rfl⟩⟩
  · have hfalse : s₀.isConfirmed d.key = false := by simpa using hconf
    obtain ⟨d', hd', hk', hrow⟩ := h.recorded d hd hfalse
    -- the row states the one deposit of its key
    rw [hd'.eq_of_key hb hd hk'] at hrow
    exact ⟨_, mem_of_row? hrow, rfl, .inr ⟨hfalse, rfl⟩⟩

/-- A row was there before, or its deposit is due. -/
theorem Deposited.origin (h : Deposited scope outputs s₀ t) (ht : t.WellFormed) {r : LedgerRow}
    (hr : r ∈ t.ledger) : r ∈ s₀.ledger ∨ ∃ d, t.IsDue scope outputs d ∧ d.key = r.key := by
  by_cases hdue : ∃ d, t.IsDue scope outputs d ∧ d.key = r.key
  · exact .inr hdue
  · have hkept := h.kept r.key (.inr fun d hd hdk => hdue ⟨d, hd, hdk⟩)
    rw [ht.row?_eq_some_iff.2 ⟨hr, rfl⟩] at hkept
    exact .inl (mem_of_row? hkept.symm)

/-- No row is gone. -/
theorem Deposited.row_of_row (h : Deposited scope outputs s₀ t) (hs₀ : s₀.WellFormed) {r : LedgerRow}
    (hr : r ∈ s₀.ledger) : ∃ r' ∈ t.ledger, r'.key = r.key := by
  have hrow := hs₀.row?_eq_some_iff.2 ⟨hr, rfl⟩
  by_cases hdue : ∃ d, t.IsDue scope outputs d ∧ d.key = r.key ∧ s₀.isConfirmed r.key = false
  · obtain ⟨d, hd, hdk, hconf⟩ := hdue
    rw [← hdk] at hconf
    obtain ⟨d', -, -, hrow'⟩ := h.recorded d hd hconf
    exact ⟨_, mem_of_row? hrow', hdk⟩
  · have hkept : t.row? r.key = s₀.row? r.key := by
      refine h.kept r.key ?_
      cases hconf : s₀.isConfirmed r.key with
      | true => exact .inl rfl
      | false => exact .inr fun d hd hdk => hdue ⟨d, hd, hdk, hconf⟩
    exact ⟨r, mem_of_row? (hkept.trans hrow), rfl⟩

/-- Spends and tips leave the deposit side of every row. -/
theorem exists_of_deposits_eq
    (h : s'.ledger.map (fun r => (r.key, r.deposit)) = t.ledger.map fun r => (r.key, r.deposit))
    {r : LedgerRow} (hr : r ∈ t.ledger) :
    ∃ r' ∈ s'.ledger, r'.key = r.key ∧ r'.deposit = r.deposit := by
  have hmem : (r.key, r.deposit) ∈ s'.ledger.map fun r => (r.key, r.deposit) := by
    rw [h]
    exact List.mem_map.2 ⟨r, hr, rfl⟩
  obtain ⟨r', hr', heq⟩ := List.mem_map.1 hmem
  exact ⟨r', hr', congrArg Prod.fst heq, congrArg Prod.snd heq⟩

end Store

namespace Sample

/-- The scripts of the second receiving address. -/
def receiving₁ : DerivedScripts where
  toKey := script "2102e740d213a1aa5746c66bae1ecda3b95d7f64d4bf8aff9d93702fc302f28df0f1ac"
  toKeyHash := script "76a9141a4c3d16409dddc499160230dc84a1182b2ab38e88ac"

/-- The scripts of the third receiving address. -/
def receiving₂ : DerivedScripts where
  toKey := script "210347ff3dacd07a1f43805ec6808e801505a6e18245178609972a68afbc2777ff2bac"
  toKeyHash := script "76a914bb1ba8718014b1c284d2b8dd758ff23d2648cd5b88ac"

/-- An output of the mempool that pays a script. -/
def output (script : Script) (vout : UInt32) : StagedOutput :=
  ⟨script, script, 5000, ⟨Hash256.zero, vout⟩, none, 7, false⟩

/-- The second address exists only once the output that pays the first one is recorded. -/
def cascade : Batch := ⟨[output receiving₁.toKeyHash 1, output receiving.toKeyHash 0], []⟩

/-- The row of a deposit that is not spent. -/
def unspent (d : Deposit) : LedgerRow := ⟨d.key, d.side, .unspent⟩

/-- The store after the cascade. -/
def deposited : Store where
  wallets := store.wallets
  accounts := store.accounts
  addresses := store.addresses ++ [⟨⟨⟨1, 0, 0⟩, 1⟩, receiving₁⟩, ⟨⟨⟨1, 0, 0⟩, 2⟩, receiving₂⟩]
  ledger :=
    [unspent (.ofOutput ⟨⟨1, 0, 0⟩, 0⟩ (output receiving.toKeyHash 0)),
      unspent (.ofOutput ⟨⟨1, 0, 0⟩, 1⟩ (output receiving₁.toKeyHash 1))]
  payments := []

theorem perform_cascade :
    ((opened config).perform (.processBatch cascade none fun _ => none)).map (·.store) =
      .ok deposited := by
  decide +kernel

end Sample

namespace Indexer

open Store

/-- **A batch records exactly the deposits due at its end.** Every staged output that pays an address
in scope, among the addresses after the batch, has its row; the deposit side is as it was if it was
confirmed before and states the output otherwise. Every other row was there before with the same
deposit side, and no row is gone. -/
theorem deposits_exact {ix ix' : Indexer} {batch : Batch} {header : Option BatchHeader}
    {chain : ChainView} {outcome : BatchOutcome} (hreach : ix.Reachable) (hb : batch.Consistent)
    (h : ix.processBatch batch header chain = .ok (outcome, ix')) :
    (∀ a ∈ ix'.store.addresses, ix.TakesPart header a.id.group.wallet →
      ∀ o ∈ batch.outputs, o.script = a.scripts.toKeyHash →
        ∃ r' ∈ ix'.store.ledger, r'.IsFor a.id o ∧
          ((∃ r ∈ ix.store.ledger, r.key = r'.key ∧ r.deposit.isConfirmed = true ∧
              r'.deposit = r.deposit) ∨
            ((∀ r ∈ ix.store.ledger, r.key = r'.key → r.deposit.isConfirmed = false) ∧
              r'.deposit.States o))) ∧
    (∀ r' ∈ ix'.store.ledger,
      (∃ r ∈ ix.store.ledger, r.key = r'.key ∧ r.deposit = r'.deposit) ∨
        ∃ a ∈ ix'.store.addresses, ix.TakesPart header a.id.group.wallet ∧
          ∃ o ∈ batch.outputs, o.script = a.scripts.toKeyHash ∧ r'.IsFor a.id o) ∧
    (∀ r ∈ ix.store.ledger, ∃ r' ∈ ix'.store.ledger, r'.key = r.key) := by
  obtain ⟨⟨out, store⟩, happly, h⟩ := bind_eq_ok_iff.1 h
  cases h
  obtain ⟨found, t, names, hrounds, hmoved⟩ := parts_of_applyBatch happly
  have hs := hreach.wellFormed
  have hwrites : Writes (fun _ => True) ix.store t := writes_rounds trivial hrounds
  have ht : t.WellFormed := wellFormed_of_writes hs hwrites
  have hdep := deposited_of_rounds hs hs (Matched.init _) hrounds
  -- spends and tips come after matching and leave deposits alone
  obtain ⟨-, haddresses, hpairs⟩ := frame_moved hmoved
  have hwallets := (frame_rounds hrounds).1
  refine ⟨?_, ?_, ?_⟩
  · intro a ha hpart o ho hscript
    have hdue : t.IsDue (Scope.ofBatch ix.config header) batch.outputs (.ofOutput a.id o) := by
      refine ⟨o, ho, a, haddresses ▸ ha, hscript.symm, ?_, rfl⟩
      rw [inScope_congr hwallets]
      exact inScope_iff.2 hpart
    obtain ⟨r, hr, hkey, hside⟩ := hdep.row_of_isDue hs hb.outputs hdue
    obtain ⟨r', hr', hkey', hside'⟩ := exists_of_deposits_eq hpairs hr
    refine ⟨r', hr', LedgerRow.isFor_iff.2 (hkey'.trans hkey), ?_⟩
    rw [hkey', hkey, hside']
    rcases hside with hside | ⟨hunconf, hside⟩
    · exact .inl hside
    · refine .inr ⟨fun r₀ hr₀ hk => ?_, ?_⟩
      · rw [hs.isConfirmed_eq, hs.row?_eq_some_iff.2 ⟨hr₀, hk⟩, Option.any_some] at hunconf
        exact hunconf
      · rw [hside]
        exact ⟨rfl, rfl, rfl, rfl, rfl, rfl⟩
  · intro r' hr'
    obtain ⟨r, hr, hkey, hside⟩ := exists_of_deposits_eq hpairs.symm hr'
    rcases hdep.origin ht hr with hr | ⟨d, ⟨o, ho, a, ha, hscript, hscope, rfl⟩, hdk⟩
    · exact .inl ⟨r, hr, hkey, hside⟩
    · rw [inScope_congr hwallets] at hscope
      exact .inr ⟨a, haddresses ▸ ha, inScope_iff.1 hscope, o, ho, hscript.symm,
        LedgerRow.isFor_iff.2 (hdk.trans hkey).symm⟩
  · intro r hr
    obtain ⟨r₁, hr₁, hkey⟩ := hdep.row_of_row hs hr
    obtain ⟨r', hr', hkey', -⟩ := exists_of_deposits_eq hpairs hr₁
    exact ⟨r', hr', hkey'.trans hkey⟩

/-- A cascade is recorded to its end: the output that pays an address created on the way too. -/
theorem deposits_exact_cascade :
    (Sample.opened Sample.config).Reachable ∧ Sample.cascade.Consistent ∧ ∃ outcome ix',
      (Sample.opened Sample.config).processBatch Sample.cascade none (fun _ => none) =
        .ok (outcome, ix') ∧
      (∃ r' ∈ ix'.store.ledger, ∃ o ∈ Sample.cascade.outputs, r'.IsFor ⟨⟨1, 0, 0⟩, 1⟩ o ∧
        r'.deposit.States o) ∧
      ∀ r' ∈ ix'.store.ledger, ∃ a ∈ Sample.deposited.addresses, ∃ o ∈ Sample.cascade.outputs,
        r'.IsFor a.id o := by
  obtain ⟨past, hist, -⟩ := Sample.history Sample.config
  have hreach : (Sample.opened Sample.config).Reachable := ⟨_, past, hist⟩
  have hb : Sample.cascade.Consistent := ⟨by decide, by decide⟩
  obtain ⟨ix', hperform, hstore⟩ := map_eq_ok_iff.1 Sample.perform_cascade
  obtain ⟨⟨outcome, _⟩, h, rfl⟩ := map_eq_ok_iff.1 hperform
  refine ⟨hreach, hb, outcome, _, h, ?_, ?_⟩
  · have ha : (⟨⟨⟨1, 0, 0⟩, 1⟩, Sample.receiving₁⟩ : Address) ∈ Sample.deposited.addresses := by
      decide
    have hpart : (Sample.opened Sample.config).TakesPart none 1 := inScope_iff.1 (by decide)
    obtain ⟨r', hr', hfor, hside⟩ :=
      (deposits_exact hreach hb h).1 _ (hstore ▸ ha) hpart _ List.mem_cons_self rfl
    refine ⟨r', hr', _, List.mem_cons_self, hfor, ?_⟩
    rcases hside with ⟨r, hr, -⟩ | ⟨-, hside⟩
    · -- nothing was recorded before the batch
      cases hr
    · exact hside
  · intro r' hr'
    rcases (deposits_exact hreach hb h).2.1 r' hr' with ⟨r, hr, -⟩ | ⟨a, ha, -, o, ho, -, hfor⟩
    · cases hr
    · exact ⟨a, hstore ▸ ha, o, ho, hfor⟩

end Indexer

end WalletLedger
