import WalletLedger.Proofs.Calls

/-!
# Well-formed stores

Rows refer to rows that exist, keys are unique, and the columns of a side are present or absent
together. No write breaks this, nor does a rollback or a removal.

* `Store.wellFormed_of_write`, `Store.wellFormed_of_change`: the steps.
* `Indexer.wellFormed_of_history`: every store of an indexer is well formed, at any time.
-/

namespace WalletLedger

/-- The tip and the locator of a wallet are those of one block, or both absent. -/
def WalletRow.Synced (w : WalletRow) : Prop :=
  (w.height = none ∧ w.hash = Hash256.zero.bytes ∧ w.locator = []) ∨
    ∃ tip chain locator, BlockLocator.build tip chain = .ok locator ∧ w.height = some tip.height ∧
      w.hash = tip.hash.bytes ∧ w.locator = BlockLocator.encode locator.hashes

/-- The columns of a row that belong together are present or absent together. -/
structure LedgerRow.WellFormed (r : LedgerRow) : Prop where
  txid : r.key.txid.length = 32
  deposit : ∃ block : Option BlockRef, r.deposit.height = block.map (·.height) ∧
    r.deposit.hash = block.map (·.hash.bytes)
  spend : r.spend = .unspent ∨ ∃ sp : StagedSpend, r.spend = SpendSide.ofSpend sp

/-- What every store satisfies that calls have built. -/
structure Store.WellFormed (s : Store) : Prop where
  wallet_ids : s.wallets.map (·.id) = (List.range s.wallets.length).map fun i : Nat => (i : Int) + 1
  wallet_names : (s.wallets.map (·.name)).Nodup
  synced : ∀ w ∈ s.wallets, w.Synced
  account_keys : (s.accounts.map fun a => (a.wallet, a.index)).Nodup
  account_owner : ∀ a ∈ s.accounts, ∃ w ∈ s.wallets, w.id = a.wallet
  address_ids : (s.addresses.map (·.id)).Nodup
  address_owner : ∀ a ∈ s.addresses, ∃ account ∈ s.accounts, account.wallet = a.id.group.wallet ∧
    account.index = a.id.group.account ∧
    account.derive a.id.group.kind a.id.index = .ok a.scripts
  address_kind : ∀ a ∈ s.addresses, IsPoolKind a.id.group.kind
  ledger_keys : (s.ledger.map (·.key)).Nodup
  row_address : ∀ r ∈ s.ledger, ∃ a ∈ s.addresses, a.id = r.key.address ∧
    a.scripts.toKeyHash = r.deposit.script
  rows : ∀ r ∈ s.ledger, r.WellFormed
  payments : ∀ p ∈ s.payments, p.source.txid.length = 32

/-! ## Lists of rows -/

theorem map_eq_self {α : Type} {f : α → α} {xs : List α} (h : ∀ x ∈ xs, f x = x) :
    xs.map f = xs := by
  conv => rhs; rw [← List.map_id xs]
  exact List.map_congr_left h

/-- Changes that a test does not see commute with it. -/
theorem filter_map_comm {α : Type} {f : α → α} {p : α → Bool} {xs : List α}
    (h : ∀ x ∈ xs, p (f x) = p x) : (xs.map f).filter p = (xs.filter p).map f := by
  rw [List.filter_map]
  have hfilter : xs.filter (p ∘ f) = xs.filter p := List.filter_congr h
  rw [hfilter]

/-- A new row with a new key keeps the keys unique. -/
theorem nodup_keys_append {α κ : Type} {key : α → κ} {xs : List α} {k : κ}
    (hxs : (xs.map key).Nodup) (hfresh : ∀ y ∈ xs, key y ≠ k) : (xs.map key ++ [k]).Nodup := by
  rw [List.nodup_append]
  refine ⟨hxs, List.nodup_singleton k, ?_⟩
  intro k' hk' m hm
  obtain ⟨y, hy, rfl⟩ := List.mem_map.1 hk'
  rw [List.mem_singleton.1 hm]
  exact hfresh y hy

/-! ## Single rows -/

/-- A row is empty, or it is the one that moving it to its tip writes. -/
theorem WalletRow.Synced.eq_withTip {row : WalletRow} (h : row.Synced) :
    (row.height = none ∧ row.hash = Hash256.zero.bytes ∧ row.locator = []) ∨
      ∃ tip chain locator, BlockLocator.build tip chain = .ok locator ∧
        row = row.withTip tip locator.hashes := by
  rcases h with hempty | ⟨tip, chain, locator, hbuild, hheight, hhash, hlocator⟩
  · exact .inl hempty
  · refine .inr ⟨tip, chain, locator, hbuild, ?_⟩
    unfold withTip
    rw [← hheight, ← hhash, ← hlocator]

/-- A deposit is confirmed or unconfirmed, with nothing between. -/
theorem LedgerRow.WellFormed.isUnconfirmed_eq {r : LedgerRow} (h : r.WellFormed) :
    r.deposit.isUnconfirmed = !r.deposit.isConfirmed := by
  obtain ⟨block, hheight, hhash⟩ := h.deposit
  rw [DepositSide.isConfirmed, DepositSide.isUnconfirmed, hheight, hhash]
  cases block <;> rfl

theorem readBlock_map (block : Option BlockRef) :
    readBlock (block.map (·.height)) (block.map (·.hash.bytes)) = .ok block := by
  cases block with
  | none => rfl
  | some ref =>
    have hread : readBlockHash ref.hash.bytes = .ok ref.hash := readBlockHash_eq_ok_iff.2 rfl
    simp only [Option.map_some, readBlock, hread]
    rfl

theorem readTxid_bytes (txid : Hash256) : readTxid txid.bytes = .ok txid := by
  simp only [readTxid, Hash256.ofBytes?_bytes]

/-- A well-formed row is read, and the entry says what the row says. -/
theorem LedgerRow.WellFormed.decode {r : LedgerRow} (h : r.WellFormed) :
    ∃ e, r.decode = .ok e ∧ e.outpoint.txid.bytes = r.key.txid ∧ e.outpoint.vout = r.key.vout ∧
      e.time = r.deposit.time ∧ e.spend.map (·.txid.bytes) = r.spend.txid ∧
      e.spend.map (·.totalOut) = r.spend.totalOut := by
  obtain ⟨block, hheight, hhash⟩ := h.deposit
  obtain ⟨txid, htxid⟩ : ∃ txid : Hash256, r.key.txid = txid.bytes := ⟨⟨_, h.txid⟩, rfl⟩
  have hread : readTxid r.key.txid = .ok txid := by rw [htxid, readTxid_bytes]
  have hblock : readBlock r.deposit.height r.deposit.hash = .ok block := by
    rw [hheight, hhash, readBlock_map]
  have hspend : ∃ spend, r.spend.decode = .ok spend ∧ spend.map (·.txid.bytes) = r.spend.txid ∧
      spend.map (·.totalOut) = r.spend.totalOut := by
    rcases h.spend with hspend | ⟨sp, hspend⟩
    · rw [hspend]
      exact ⟨none, rfl, rfl, rfl⟩
    · rw [hspend]
      refine ⟨some ⟨sp.txid, sp.time, sp.block, sp.coinbase, sp.totalOut⟩, ?_, rfl, rfl⟩
      simp only [SpendSide.ofSpend, SpendSide.decode, readTxid_bytes, readBlock_map]
      rfl
  obtain ⟨spend, hdecode, hspend⟩ := hspend
  unfold LedgerRow.decode
  rw [hdecode, hread, hblock]
  exact ⟨_, rfl, htxid.symm, rfl, rfl, hspend⟩

namespace Store

variable {s s' : Store} {staged : Batch → Prop} {scope : Scope} {batch : Batch}

/-! ## Unique keys -/

/-- Two rows of one key are one row. -/
theorem WellFormed.eq_of_key (hs : s.WellFormed) {r r' : LedgerRow} (hr : r ∈ s.ledger)
    (hr' : r' ∈ s.ledger) (hk : r.key = r'.key) : r = r' :=
  List.inj_on_of_nodup_map hs.ledger_keys hr hr' hk

/-- The wallet of an address exists. -/
theorem WellFormed.exists_wallet (hs : s.WellFormed) {a : Address} (ha : a ∈ s.addresses) :
    ∃ w ∈ s.wallets, w.id = a.id.group.wallet := by
  obtain ⟨account, haccount, hwallet, -⟩ := hs.address_owner a ha
  obtain ⟨w, hw, hid⟩ := hs.account_owner account haccount
  exact ⟨w, hw, hid.trans hwallet⟩

/-! ## Writes to the ledger -/

/-- What recording a deposit does: it adds a row, replaces an unconfirmed one, or does nothing. -/
theorem record_cases (s : Store) (d : Deposit) :
    ((∀ r ∈ s.ledger, r.key ≠ d.key) ∧
      s.record d = (true, { s with ledger := s.ledger ++ [⟨d.key, d.side, .unspent⟩] })) ∨
    (∃ row ∈ s.ledger, row.key = d.key ∧ row.deposit.isUnconfirmed = true ∧
      s.record d = (true,
        { s with
          ledger := s.ledger.map fun r => if r.key = d.key then { r with deposit := d.side } else r
          payments := retime s.payments row.source d.side.time })) ∨
    (∃ row ∈ s.ledger, row.key = d.key ∧ row.deposit.isUnconfirmed = false ∧
      s.record d = (false, s)) := by
  unfold record
  split
  · rename_i hnone
    have hfresh := List.find?_eq_none.1 hnone
    refine .inl ⟨?_, rfl⟩
    intro r hr
    simpa using hfresh r hr
  · rename_i row hrow
    have hmem := List.mem_of_find?_eq_some hrow
    have hkey : row.key = d.key := by simpa using List.find?_some hrow
    by_cases hunconf : row.deposit.isUnconfirmed = true
    · refine .inr (.inl ⟨row, hmem, hkey, hunconf, ?_⟩)
      rw [if_pos hunconf]
    · refine .inr (.inr ⟨row, hmem, hkey, by simpa using hunconf, ?_⟩)
      rw [if_neg hunconf]

theorem mem_ledger_record {d : Deposit} {r : LedgerRow} (h : r ∈ (s.record d).2.ledger) :
    r ∈ s.ledger ∨ (r.key = d.key ∧ r.deposit = d.side ∧
      (r.spend = .unspent ∨ ∃ row ∈ s.ledger, row.key = d.key ∧ r.spend = row.spend)) := by
  rcases s.record_cases d with ⟨-, heq⟩ | ⟨row, hrow, hkey, -, heq⟩ | ⟨row, -, -, -, heq⟩
  · rw [heq] at h
    rcases List.mem_append.1 h with h | h
    · exact .inl h
    · rw [List.mem_singleton] at h
      subst h
      exact .inr ⟨rfl, rfl, .inl rfl⟩
  · rw [heq] at h
    obtain ⟨r0, hr0, rfl⟩ := List.mem_map.1 h
    split
    · rename_i hk
      exact .inr ⟨hk, rfl, .inr ⟨r0, hr0, hk, rfl⟩⟩
    · exact .inl hr0
  · rw [heq] at h
    exact .inl h

/-- A deposit adds its key to the ledger, unless the ledger has it. -/
theorem keys_record (s : Store) (d : Deposit) :
    (d.key ∈ s.ledger.map (·.key) ∧
        (s.record d).2.ledger.map (·.key) = s.ledger.map (·.key)) ∨
      ((∀ r ∈ s.ledger, r.key ≠ d.key) ∧
        (s.record d).2.ledger.map (·.key) = s.ledger.map (·.key) ++ [d.key]) := by
  rcases s.record_cases d with ⟨hfresh, heq⟩ | ⟨row, hrow, hkey, -, heq⟩ | ⟨row, hrow, hkey, -, heq⟩
  · rw [heq]
    exact .inr ⟨hfresh, by simp⟩
  · rw [heq]
    refine .inl ⟨List.mem_map.2 ⟨row, hrow, hkey⟩, ?_⟩
    rw [List.map_map]
    refine List.map_congr_left fun r _ => ?_
    simp only [Function.comp_def]
    split <;> rfl
  · rw [heq]
    exact .inl ⟨List.mem_map.2 ⟨row, hrow, hkey⟩, rfl⟩

theorem mem_keys_record {d : Deposit} {k : LedgerKey} :
    k ∈ (s.record d).2.ledger.map (·.key) ↔ k ∈ s.ledger.map (·.key) ∨ k = d.key := by
  rcases s.keys_record d with ⟨hmem, heq⟩ | ⟨-, heq⟩
  · rw [heq]
    refine ⟨.inl, ?_⟩
    rintro (h | rfl)
    · exact h
    · exact hmem
  · rw [heq, List.mem_append, List.mem_singleton]

theorem mem_keys_recordAll {ds : List Deposit} {k : LedgerKey} :
    k ∈ (recordAll ds s).2.ledger.map (·.key) ↔
      k ∈ s.ledger.map (·.key) ∨ k ∈ ds.map (·.key) := by
  induction ds generalizing s with
  | nil => simp [recordAll]
  | cons d ds ih =>
    simp only [recordAll]
    rw [ih, mem_keys_record, List.map_cons, List.mem_cons, or_assoc]

theorem mem_retime {payments : List PaymentRow} {source : PaymentSource} {time : UInt32}
    {p : PaymentRow} (h : p ∈ retime payments source time) :
    p ∈ payments ∨ ∃ q ∈ payments, q.source = source ∧
      p = { q with source := { source with time := time } } := by
  unfold retime at h
  split at h
  · exact .inl h
  · obtain ⟨q, hq, rfl⟩ := List.mem_map.1 h
    have hmem := (List.mem_filter.1 hq).1
    split
    · rename_i hsource
      exact .inr ⟨q, hmem, hsource, rfl⟩
    · exact .inl hmem

theorem mem_insertPayment {payments : List PaymentRow} {p q : PaymentRow}
    (h : q ∈ insertPayment payments p) : q ∈ payments ∨ q = p := by
  rcases List.mem_append.1 h with h | h
  · exact .inl (List.mem_filter.1 h).1
  · exact .inr (List.mem_singleton.1 h)

theorem mem_insertPayments {ps payments : List PaymentRow} {q : PaymentRow}
    (h : q ∈ ps.foldl insertPayment payments) : q ∈ payments ∨ q ∈ ps := by
  induction ps generalizing payments with
  | nil => exact .inl h
  | cons p ps ih =>
    rcases ih h with h | h
    · rcases mem_insertPayment h with h | rfl
      · exact .inl h
      · exact .inr List.mem_cons_self
    · exact .inr (List.mem_cons_of_mem _ h)

/-- A payment that a batch leaves was there, or belongs to a row of the ledger. -/
theorem mem_payments_matchSpends {p : PaymentRow} (h : p ∈ (s.matchSpends scope batch).2.payments) :
    p ∈ s.payments ∨ ∃ r ∈ s.ledger, s.isSpentBy scope batch.spends r = true ∧
      p ∈ r.paymentsIn batch := by
  rcases mem_insertPayments h with h | h
  · exact .inl (List.mem_filter.1 h).1
  · obtain ⟨r, hr, hp⟩ := List.mem_flatMap.1 h
    exact .inr ⟨r, (List.mem_filter.1 hr).1, (List.mem_filter.1 hr).2, hp⟩

theorem source_of_mem_paymentsIn {r : LedgerRow} {p : PaymentRow} (h : p ∈ r.paymentsIn batch) :
    p.source = r.source := by
  obtain ⟨sp, -, hp⟩ := List.mem_flatMap.1 h
  obtain ⟨o, -, rfl⟩ := List.mem_map.1 hp
  rfl

/-- What a batch does to the spend side of a row. -/
theorem spend_spendBy (r : LedgerRow) (spends : List StagedSpend) :
    (r.spendBy spends).spend = r.spend ∨
      ∃ sp ∈ r.spendsIn spends, (r.spendBy spends).spend = SpendSide.ofSpend sp := by
  unfold LedgerRow.spendBy
  split
  · rename_i sp hsp
    exact .inr ⟨sp, List.mem_of_getLast? hsp, rfl⟩
  · exact .inl rfl

/-! ## Well-formedness, write by write -/

/-- A change of ledger and payments keeps a store well formed if the rows refer to its addresses. -/
theorem WellFormed.withLedger {ledger : List LedgerRow} {payments : List PaymentRow}
    (hs : s.WellFormed) (hkeys : (ledger.map (·.key)).Nodup)
    (hrows : ∀ r ∈ ledger, r.WellFormed ∧ ∃ a ∈ s.addresses, a.id = r.key.address ∧
      a.scripts.toKeyHash = r.deposit.script)
    (hpay : ∀ p ∈ payments, p.source.txid.length = 32) :
    ({ s with ledger := ledger, payments := payments } : Store).WellFormed :=
  { hs with
    ledger_keys := hkeys
    row_address := fun r hr => (hrows r hr).2
    rows := fun r hr => (hrows r hr).1
    payments := hpay }

theorem WellFormed.empty : Store.empty.WellFormed where
  wallet_ids := rfl
  wallet_names := List.nodup_nil
  synced := by intro w hw; cases hw
  account_keys := List.nodup_nil
  account_owner := by intro a ha; cases ha
  address_ids := List.nodup_nil
  address_owner := by intro a ha; cases ha
  address_kind := by intro a ha; cases ha
  ledger_keys := List.nodup_nil
  row_address := by intro r hr; cases hr
  rows := by intro r hr; cases hr
  payments := by intro p hp; cases hp

theorem wellFormed_insertWallet {new : NewWallet} {tip : Option BlockRef} {chain : ChainView}
    {locator : BlockLocator} (hs : s.WellFormed) (hbuild : BlockLocator.ofTip tip chain = .ok locator)
    (h : s.insertWallet new tip locator.hashes = .ok s') : s'.WellFormed := by
  unfold insertWallet at h
  split at h
  · cases h
  rename_i hname
  cases h
  have hfresh : ∀ w ∈ s.wallets, w.name ≠ new.name := by
    intro w hw hn
    refine hname (List.find?_isSome.2 ⟨w, hw, ?_⟩)
    simpa using hn
  refine { hs with
    wallet_ids := ?_, wallet_names := ?_, synced := ?_, account_owner := ?_ }
  · simp [hs.wallet_ids, List.range_succ]
  · rw [List.map_append]
    exact nodup_keys_append hs.wallet_names hfresh
  · intro w hw
    rcases List.mem_append.1 hw with hw | hw
    · exact hs.synced w hw
    · rw [List.mem_singleton] at hw
      subst hw
      cases tip with
      | none =>
        cases hbuild
        exact .inl ⟨rfl, rfl, rfl⟩
      | some tip => exact .inr ⟨tip, chain, locator, hbuild, rfl, rfl, rfl⟩
  · intro a ha
    obtain ⟨w, hw, hid⟩ := hs.account_owner a ha
    exact ⟨w, List.mem_append_left _ hw, hid⟩

theorem wellFormed_insertAccount {account : Account} (hs : s.WellFormed)
    (howner : ∃ w ∈ s.wallets, w.id = account.wallet) (h : s.insertAccount account = .ok s') :
    s'.WellFormed := by
  unfold insertAccount at h
  split at h
  · cases h
  rename_i hkey
  cases h
  have hfresh : ∀ a ∈ s.accounts, (a.wallet, a.index) ≠ (account.wallet, account.index) := by
    intro a ha heq
    obtain ⟨hw, hi⟩ := Prod.mk.inj heq
    refine hkey (List.find?_isSome.2 ⟨a, ha, ?_⟩)
    simp [hw, hi]
  refine { hs with account_keys := ?_, account_owner := ?_, address_owner := ?_ }
  · rw [List.map_append]
    exact nodup_keys_append hs.account_keys hfresh
  · intro a ha
    rcases List.mem_append.1 ha with ha | ha
    · exact hs.account_owner a ha
    · rw [List.mem_singleton] at ha
      subst ha
      exact howner
  · intro a ha
    obtain ⟨b, hb, hrest⟩ := hs.address_owner a ha
    exact ⟨b, List.mem_append_left _ hb, hrest⟩

theorem wellFormed_insertAddress {account : Account} {a : Address} (hs : s.WellFormed)
    (howner : account ∈ s.accounts) (hwallet : account.wallet = a.id.group.wallet)
    (hindex : account.index = a.id.group.account)
    (hkind : IsPoolKind a.id.group.kind ∨ ∃ b ∈ s.addresses, b.id.group = a.id.group)
    (hderive : account.derive a.id.group.kind a.id.index = .ok a.scripts)
    (h : s.insertAddress a = .ok s') : s'.WellFormed := by
  have hfresh := fresh_of_insertAddress h
  rw [eq_of_insertAddress h]
  refine { hs with address_ids := ?_, address_owner := ?_, address_kind := ?_, row_address := ?_ }
  · rw [List.map_append]
    exact nodup_keys_append hs.address_ids hfresh
  · intro b hb
    rcases List.mem_append.1 hb with hb | hb
    · exact hs.address_owner b hb
    · rw [List.mem_singleton] at hb
      subst hb
      exact ⟨account, howner, hwallet, hindex, hderive⟩
  · intro b hb
    rcases List.mem_append.1 hb with hb | hb
    · exact hs.address_kind b hb
    · rw [List.mem_singleton] at hb
      subst hb
      rcases hkind with hkind | ⟨c, hc, hgroup⟩
      · exact hkind
      · rw [← hgroup]
        exact hs.address_kind c hc
  · intro r hr
    obtain ⟨b, hb, hrest⟩ := hs.row_address r hr
    exact ⟨b, List.mem_append_left _ hb, hrest⟩

theorem wellFormed_record {outputs : List StagedOutput} {d : Deposit} (hs : s.WellFormed)
    (hd : s.IsDue scope outputs d) : (s.record d).2.WellFormed := by
  obtain ⟨o, -, a, ha, hscript, -, rfl⟩ := hd
  set d := Deposit.ofOutput a.id o with hdef
  have hkeys : ((s.record d).2.ledger.map (·.key)).Nodup := by
    rcases s.keys_record d with ⟨-, heq⟩ | ⟨hfresh, heq⟩
    · rw [heq]
      exact hs.ledger_keys
    · rw [heq]
      exact nodup_keys_append hs.ledger_keys hfresh
  have hrows : ∀ r ∈ (s.record d).2.ledger, r.WellFormed ∧ ∃ a ∈ s.addresses,
      a.id = r.key.address ∧ a.scripts.toKeyHash = r.deposit.script := by
    intro r hr
    rcases mem_ledger_record hr with hr | ⟨hkey, hdep, hspend⟩
    · exact ⟨hs.rows r hr, hs.row_address r hr⟩
    · -- the deposit side is that of the output, the spend side an older one
      refine ⟨⟨?_, ⟨o.block, ?_, ?_⟩, ?_⟩, a, ha, ?_, ?_⟩
      · rw [hkey]
        exact o.outpoint.txid.length_bytes
      · rw [hdep]; rfl
      · rw [hdep]; rfl
      · rcases hspend with hspend | ⟨row, hrow, -, hspend⟩
        · exact .inl hspend
        · rw [hspend]
          exact (hs.rows row hrow).spend
      · rw [hkey]; rfl
      · rw [hdep]
        exact hscript
  have hpay : ∀ p ∈ (s.record d).2.payments, p.source.txid.length = 32 := by
    intro p hp
    rcases s.record_cases d with ⟨-, heq⟩ | ⟨row, -, -, -, heq⟩ | ⟨row, -, -, -, heq⟩
    · rw [heq] at hp
      exact hs.payments p hp
    · rw [heq] at hp
      rcases mem_retime hp with hp | ⟨q, hq, hsource, rfl⟩
      · exact hs.payments p hp
      · have hlen := hs.payments q hq
        rw [hsource] at hlen
        exact hlen
    · rw [heq] at hp
      exact hs.payments p hp
  have hwf := hs.withLedger hkeys hrows hpay
  have hframe : (s.record d).2 =
      { s with ledger := (s.record d).2.ledger, payments := (s.record d).2.payments } := by
    rcases s.record_cases d with ⟨-, heq⟩ | ⟨row, -, -, -, heq⟩ | ⟨row, -, -, -, heq⟩ <;> rw [heq]
  rw [hframe]
  exact hwf

theorem wellFormed_matchSpends (hs : s.WellFormed) : (s.matchSpends scope batch).2.WellFormed := by
  refine hs.withLedger ?_ ?_ ?_
  · have hkeys := congrArg (List.map Prod.fst) (s.key_matchSpends scope batch)
    rw [List.map_map, List.map_map] at hkeys
    exact hkeys ▸ hs.ledger_keys
  · intro r hr
    obtain ⟨r0, hr0, rfl⟩ := List.mem_map.1 hr
    have h0 := hs.rows r0 hr0
    split
    · refine ⟨⟨?_, ?_, ?_⟩, ?_⟩
      · rw [(r0.key_spendBy _).1]
        exact h0.txid
      · rw [(r0.key_spendBy _).2]
        exact h0.deposit
      · rcases spend_spendBy r0 batch.spends with h | ⟨sp, -, h⟩
        · rw [h]
          exact h0.spend
        · exact .inr ⟨sp, h⟩
      · rw [(r0.key_spendBy _).1, (r0.key_spendBy _).2]
        exact hs.row_address r0 hr0
    · exact ⟨h0, hs.row_address r0 hr0⟩
  · intro p hp
    rcases mem_payments_matchSpends hp with hp | ⟨r, hr, -, hp⟩
    · exact hs.payments p hp
    · rw [source_of_mem_paymentsIn hp]
      exact (hs.rows r hr).txid

theorem wellFormed_setTip {wallet : Int} {tip : BlockRef} {chain : ChainView}
    {locator : BlockLocator} (hs : s.WellFormed) (hbuild : BlockLocator.build tip chain = .ok locator) :
    (s.setTip wallet tip locator.hashes).WellFormed := by
  have hids : (s.setTip wallet tip locator.hashes).wallets.map (·.id) = s.wallets.map (·.id) := by
    simp only [setTip, List.map_map]
    refine List.map_congr_left fun w _ => ?_
    simp only [Function.comp_def]
    split <;> rfl
  have hnames : (s.setTip wallet tip locator.hashes).wallets.map (·.name) = s.wallets.map (·.name) := by
    simp only [setTip, List.map_map]
    refine List.map_congr_left fun w _ => ?_
    simp only [Function.comp_def]
    split <;> rfl
  -- accounts refer to wallets by identifier, which stays
  refine { hs with wallet_ids := ?_, wallet_names := ?_, synced := ?_, account_owner := ?_ }
  · rw [hids, hs.wallet_ids]
    simp [setTip]
  · rw [hnames]
    exact hs.wallet_names
  · intro w hw
    obtain ⟨w0, hw0, rfl⟩ := List.mem_map.1 hw
    split
    · exact .inr ⟨tip, chain, locator, hbuild, rfl, rfl, rfl⟩
    · exact hs.synced w0 hw0
  · intro a ha
    obtain ⟨w, hw, hid⟩ := hs.account_owner a ha
    have hmem : w.id ∈ (s.setTip wallet tip locator.hashes).wallets.map (·.id) := by
      rw [hids]
      exact List.mem_map_of_mem hw
    obtain ⟨w', hw', hid'⟩ := List.mem_map.1 hmem
    exact ⟨w', hw', hid'.trans hid⟩

/-- Clearing spends changes no key. -/
theorem keys_clear (clear : LedgerRow → Bool) (rows : List LedgerRow) :
    (rows.map fun r => if clear r then { r with spend := .unspent } else r).map (·.key) =
      rows.map (·.key) := by
  rw [List.map_map]
  refine List.map_congr_left fun r _ => ?_
  simp only [Function.comp_def]
  split <;> rfl

/-- Deleting rows and clearing spends keeps a store well formed. -/
theorem WellFormed.withCleared {keep clear : LedgerRow → Bool} {payments : List PaymentRow}
    (hs : s.WellFormed) (hpay : ∀ p ∈ payments, p ∈ s.payments) :
    ({ s with
        payments := payments
        ledger := (s.ledger.filter keep).map fun r =>
          if clear r then { r with spend := .unspent } else r } : Store).WellFormed := by
  refine hs.withLedger ?_ ?_ fun p hp => hs.payments p (hpay p hp)
  · rw [keys_clear]
    exact hs.ledger_keys.sublist (List.filter_sublist.map _)
  · intro r hr
    obtain ⟨r0, hr0, rfl⟩ := List.mem_map.1 hr
    have hmem := (List.mem_filter.1 hr0).1
    have h0 := hs.rows r0 hmem
    split
    · exact ⟨⟨h0.txid, h0.deposit, .inl rfl⟩, hs.row_address r0 hmem⟩
    · exact ⟨h0, hs.row_address r0 hmem⟩

theorem wellFormed_of_write (hs : s.WellFormed) (h : Write staged s s') : s'.WellFormed := by
  cases h with
  | wallet build insert => exact wellFormed_insertWallet hs build insert
  | account owner insert => exact wellFormed_insertAccount hs owner insert
  | address owner wallet index kind derive insert =>
    exact wellFormed_insertAddress hs owner wallet index kind derive insert
  | deposit admitted due => exact wellFormed_record hs due
  | spends admitted => exact wellFormed_matchSpends hs
  | tip build => exact wellFormed_setTip hs build

theorem wellFormed_of_writes (hs : s.WellFormed) (h : Writes staged s s') : s'.WellFormed := by
  induction h with
  | refl => exact hs
  | tail _ hwrite ih => exact wellFormed_of_write ih hwrite

theorem wellFormed_recordAll {outputs : List StagedOutput} {ds : List Deposit} (hs : s.WellFormed)
    (hdue : ∀ d ∈ ds, s.IsDue scope outputs d) : (recordAll ds s).2.WellFormed := by
  -- the batch that holds these outputs alone
  let batch : Batch := ⟨outputs, []⟩
  have hdue' : ∀ d ∈ ds, s.IsDue scope batch.outputs d := hdue
  have hwrites : Writes (fun _ => True) s (recordAll ds s).2 := writes_recordAll trivial hdue'
  exact wellFormed_of_writes hs hwrites

theorem wellFormed_extendPools {buffer : UInt64} {gs : List AddressGroup} {created : List Address}
    (hs : s.WellFormed) (hkind : ∀ g ∈ gs, IsPoolKind g.kind ∨ ∃ b ∈ s.addresses, b.id.group = g)
    (h : extendPools buffer gs s = .ok (created, s')) : s'.WellFormed := by
  have hwrites : Writes (fun _ => True) s s' := writes_extendPools hkind h
  exact wellFormed_of_writes hs hwrites

theorem wellFormed_round {outputs : List StagedOutput} {buffer : UInt64}
    {pools : List AddressGroup} {applied : List LedgerKey} {new : List Deposit}
    {created : List Address} (hs : s.WellFormed) (hnew : new = s.newDeposits scope outputs applied)
    (h : extendPools buffer (s.touchedPools pools new) (recordAll new s).2 = .ok (created, s')) :
    s'.WellFormed := by
  have hdue : ∀ d ∈ new, s.IsDue scope outputs d := by
    intro d hd
    rw [hnew] at hd
    exact (isDue_of_mem_newDeposits hd).1
  refine wellFormed_extendPools (wellFormed_recordAll hs hdue) (fun g hg => ?_) h
  rw [addresses_recordAll]
  exact .inr (group_of_mem_touchedPools hdue hg)

theorem wellFormed_rounds {outputs : List StagedOutput} {buffer : UInt64} {pools : List AddressGroup}
    {applied : List LedgerKey} {found : DepositOutcome} (hs : s.WellFormed)
    (h : Rounds scope buffer outputs pools applied s found s') : s'.WellFormed := by
  induction h with
  | stop => exact hs
  | last hnew hextend => exact wellFormed_round hs hnew hextend
  | round hnew hextend _ _ ih => exact ih (wellFormed_round hs hnew hextend)

theorem wellFormed_applyBatch {config : Config} {header : Option BatchHeader} {chain : ChainView}
    {outcome : BatchOutcome} (hs : s.WellFormed)
    (h : s.applyBatch config batch header chain = .ok (outcome, s')) : s'.WellFormed := by
  have hwrites : Writes (fun _ => True) s s' := writes_applyBatch trivial h
  exact wellFormed_of_writes hs hwrites

theorem wellFormed_of_change (hs : s.WellFormed) (h : Change staged s s') : s'.WellFormed := by
  cases h with
  | written writes => exact wellFormed_of_writes hs writes
  | undone held above build =>
    exact wellFormed_setTip (hs.withCleared fun p hp => (List.mem_filter.1 hp).1) build
  | dropped held => exact hs.withCleared fun p hp => (List.mem_filter.1 hp).1

end Store

namespace Indexer

/-- **Every store of an indexer is well formed**, in every state of every history. -/
theorem wellFormed_of_history {calls : List Call} {states : List Indexer}
    (hist : History calls states) :
    ∀ ix ∈ states, ∀ network, (ix.storeOf network).WellFormed :=
  hist.store_invariant Store.WellFormed.empty fun _ _ hs h => Store.wellFormed_of_change hs h

theorem Reachable.wellFormed {ix : Indexer} (h : ix.Reachable) : ix.store.WellFormed := by
  obtain ⟨calls, past, hist⟩ := h
  have hwf := wellFormed_of_history hist ix List.mem_cons_self ix.network
  simpa [storeOf] using hwf

end Indexer

end WalletLedger
