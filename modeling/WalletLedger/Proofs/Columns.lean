import Mathlib.Data.Set.List
import WalletLedger.Proofs.Advance

/-!
# Columns and entries

The schema of the store has neither foreign keys nor constraints over several columns, and queries test
a height, a hash or the name of a spending transaction alone. They may, because every row that calls can
write is the row of the entry that it is read as, column by column.

* `LedgerEntry.row`: the row of an entry, and `LedgerEntry.decode_row`, `LedgerRow.WellFormed.exists_entry`:
  rows and entries say the same.
* `LedgerRow.TestsAs`: the tests on columns say of a row what its entry says.
* `Store.Intact`: references, keys, columns and tests of a store.
* `Indexer.stores_intact`: all of this in every state, whatever was called and refused.
-/

namespace WalletLedger

/-! ## Entries as rows -/

/-- Whether a spend is recorded and in a block. -/
def LedgerEntry.isSpendConfirmed (e : LedgerEntry) : Bool := e.spend.any (·.block.isSome)

/-- The block that holds the spend. -/
def LedgerEntry.spendBlock (e : LedgerEntry) : Option BlockRef := e.spend.bind (·.block)

/-- Whether an entry can be spent in the block after `current`: a confirmed one is deep enough, and more
so a coinbase output; an unconfirmed one can if no confirmations are asked for. -/
def LedgerEntry.isMature (current maturity confirmations : UInt32) (e : LedgerEntry) : Bool :=
  match e.block with
  | none => confirmations == 0
  | some block =>
    let depth : Int := (current.toNat : Int) - block.height.toNat + 1
    decide ((confirmations.toNat : Int) ≤ depth) &&
      (!e.coinbase || decide ((maturity.toNat : Int) ≤ depth))

/-- The spend side that a spend is written as. -/
def SpendSide.ofInfo : Option SpendInfo → SpendSide
  | none => .unspent
  | some sp => ⟨sp.block.map (·.height), sp.block.map (·.hash.bytes), some sp.coinbase, some sp.time,
      some sp.txid.bytes, some sp.totalOut⟩

/-- The row that an entry is written as. -/
def LedgerEntry.row (e : LedgerEntry) : LedgerRow where
  key := ⟨e.address, e.redeem, e.outpoint.txid.bytes, e.outpoint.vout⟩
  deposit := ⟨e.script, e.value, e.block.map (·.height), e.block.map (·.hash.bytes), e.time, e.coinbase⟩
  spend := .ofInfo e.spend

theorem SpendSide.decode_ofInfo (spend : Option SpendInfo) : (ofInfo spend).decode = .ok spend := by
  cases spend with
  | none => rfl
  | some sp =>
    simp only [ofInfo, decode, readTxid_bytes, readBlock_map]
    rfl

/-- **What is written is read back.** -/
theorem LedgerEntry.decode_row (e : LedgerEntry) : e.row.decode = .ok e := by
  simp only [row, LedgerRow.decode, SpendSide.decode_ofInfo, readTxid_bytes, readBlock_map]
  rfl

theorem LedgerEntry.mapM_decode_row (es : List LedgerEntry) : (es.map row).mapM (·.decode) = .ok es := by
  have hread : (es.map row).mapM (·.decode) = .ok (es.map id) := by
    rw [List.mapM_map]
    exact mapM_eq_ok fun e _ => e.decode_row
  rwa [List.map_id] at hread

theorem SpendSide.exists_info {side : SpendSide}
    (h : side = .unspent ∨ ∃ sp : StagedSpend, side = .ofSpend sp) : ∃ spend, side = .ofInfo spend := by
  rcases h with rfl | ⟨sp, rfl⟩
  · exact ⟨none, rfl⟩
  · exact ⟨some ⟨sp.txid, sp.time, sp.block, sp.coinbase, sp.totalOut⟩, rfl⟩

/-- **A row that calls can write is the row of an entry.** -/
theorem LedgerRow.WellFormed.exists_entry {r : LedgerRow} (h : r.WellFormed) :
    ∃ e : LedgerEntry, r = e.row := by
  obtain ⟨block, hheight, hhash⟩ := h.deposit
  obtain ⟨spend, hspend⟩ := SpendSide.exists_info h.spend
  have htxid := h.txid
  obtain ⟨⟨address, redeem, txid, vout⟩, ⟨script, value, height, hash, time, coinbase⟩, side⟩ := r
  dsimp only at hheight hhash hspend htxid
  subst hheight hhash hspend
  exact ⟨⟨address, redeem, script, ⟨⟨txid, htxid⟩, vout⟩, value, block, time, coinbase, spend⟩, rfl⟩

/-! ## Tests on columns -/

namespace LedgerRow

open Store

/-- Columns that belong together are set together. -/
structure Paired (r : LedgerRow) : Prop where
  outputBlock : r.deposit.height.isSome = r.deposit.hash.isSome
  spendBlock : r.spend.height.isSome = r.spend.hash.isSome
  spendTime : r.spend.time.isSome = r.spend.txid.isSome
  spendCoinbase : r.spend.coinbase.isSome = r.spend.txid.isSome
  spendTotal : r.spend.totalOut.isSome = r.spend.txid.isSome
  spendNamed : r.spend.height.isSome = true → r.spend.txid.isSome = true

/-- The tests on the columns of a row say what an entry says. -/
structure TestsAs (r : LedgerRow) (e : LedgerEntry) : Prop where
  /-- The balance tells confirmed outputs by the height. -/
  height : r.deposit.height.isSome = e.isConfirmed
  hash : r.deposit.hash.isSome = e.isConfirmed
  /-- Matching leaves out what is recorded as confirmed. -/
  confirmed : r.deposit.isConfirmed = e.isConfirmed
  /-- A deposit replaces one that is unconfirmed. -/
  unconfirmed : r.deposit.isUnconfirmed = !e.isConfirmed
  /-- A rollback deletes the deposits above a height. -/
  above : ∀ bound, isAbove bound r.deposit.height = e.block.any (bound < ·.height)
  spent : r.spend.txid.isSome = e.isSpent
  /-- The balance and the spendable outputs leave out what is spent. -/
  unspent : ∀ wallet account, isUnspentOf wallet account r =
    (e.address.group.wallet == wallet && e.address.group.account == account && !e.isSpent)
  mature : ∀ current maturity confirmations, isMature current maturity confirmations r.deposit =
    e.isMature current maturity confirmations
  spendHeight : r.spend.height.isSome = e.isSpendConfirmed
  spendHash : r.spend.hash.isSome = e.isSpendConfirmed
  /-- Matching leaves out what is spent in a block. -/
  spendConfirmed : r.spend.isConfirmed = e.isSpendConfirmed
  spendUnconfirmed : r.spend.isUnconfirmed = !e.isSpendConfirmed
  /-- A rollback clears the spends above a height. -/
  spendAbove : ∀ bound, isAbove bound r.spend.height = e.spendBlock.any (bound < ·.height)
  /-- A removal takes back unconfirmed deposits and spends of a transaction. -/
  pendingDeposit : ∀ wallet txid, isPendingDeposit wallet txid r =
    (e.address.group.wallet == wallet && e.outpoint.txid == txid && !e.isConfirmed)
  pendingSpend : ∀ wallet txid, isPendingSpend wallet txid r =
    (e.address.group.wallet == wallet && e.spend.any (·.txid == txid) && !e.isSpendConfirmed)

end LedgerRow

namespace LedgerEntry

open Store

theorem paired_row (e : LedgerEntry) : e.row.Paired := by
  obtain ⟨address, redeem, script, outpoint, value, block, time, coinbase, spend⟩ := e
  constructor <;> cases block <;> cases spend <;> simp [row, SpendSide.ofInfo, SpendSide.unspent]

theorem bytes_beq (txid txid' : Hash256) : (txid.bytes == txid'.bytes) = (txid == txid') := by
  rw [Bool.eq_iff_iff, beq_iff_eq, beq_iff_eq]
  exact ⟨Hash256.ext, congrArg _⟩

/-- **Every test on the columns of an entry's row agrees with the entry.** -/
theorem testsAs_row (e : LedgerEntry) : e.row.TestsAs e := by
  obtain ⟨address, redeem, script, outpoint, value, block, time, coinbase, spend⟩ := e
  -- deposits are told by their block, spends by being there and by theirs
  constructor
  case height | hash | confirmed | unconfirmed => cases block <;> rfl
  case above =>
    intro bound
    cases block <;> rfl
  case mature =>
    intro current maturity confirmations
    cases block <;> rfl
  case spent => cases spend <;> rfl
  case unspent =>
    intro wallet account
    cases spend <;> rfl
  case spendHeight | spendHash | spendConfirmed | spendUnconfirmed =>
    rcases spend with _ | ⟨txid, time, _ | block, coinbase, total⟩ <;> rfl
  case spendAbove =>
    intro bound
    rcases spend with _ | ⟨txid, time, _ | block, coinbase, total⟩ <;> rfl
  case pendingDeposit =>
    intro wallet txid
    rw [isPendingDeposit, row, bytes_beq]
    cases block <;> rfl
  case pendingSpend =>
    intro wallet txid
    rcases spend with _ | ⟨txid', time, _ | block, coinbase, total⟩
    · simp [isPendingSpend, row, SpendSide.ofInfo, SpendSide.unspent]
    · simp [isPendingSpend, row, SpendSide.ofInfo, SpendSide.isUnconfirmed, isSpendConfirmed, bytes_beq]
    · simp [isPendingSpend, row, SpendSide.ofInfo, SpendSide.isUnconfirmed, isSpendConfirmed]

end LedgerEntry

/-! ## Stores -/

/-- A store in which references lead to rows, keys are unique, columns that belong together are set
together, and every test on columns agrees with the entry that a row is read as. -/
structure Store.Intact (s : Store) : Prop where
  account_wallet : ∀ a ∈ s.accounts, ∃ w ∈ s.wallets, w.id = a.wallet
  address_account : ∀ a ∈ s.addresses, ∃ account ∈ s.accounts,
    account.wallet = a.id.group.wallet ∧ account.index = a.id.group.account
  row_address : ∀ r ∈ s.ledger, ∃ a ∈ s.addresses, a.id = r.key.address ∧
    a.scripts.toKeyHash = r.deposit.script
  keys : (s.ledger.map (·.key)).Nodup
  paired : ∀ r ∈ s.ledger, r.Paired
  tests : ∀ r ∈ s.ledger, ∃ e, r.decode = .ok e ∧ r.TestsAs e

theorem Store.WellFormed.intact {s : Store} (hs : s.WellFormed) : s.Intact := by
  constructor
  case account_wallet => exact hs.account_owner
  case address_account =>
    intro a ha
    obtain ⟨account, haccount, hwallet, hindex, -⟩ := hs.address_owner a ha
    exact ⟨account, haccount, hwallet, hindex⟩
  case row_address => exact hs.row_address
  case keys => exact hs.ledger_keys
  case paired =>
    intro r hr
    obtain ⟨e, rfl⟩ := (hs.rows r hr).exists_entry
    exact e.paired_row
  case tests =>
    intro r hr
    obtain ⟨e, rfl⟩ := (hs.rows r hr).exists_entry
    exact ⟨e, e.decode_row, e.testsAs_row⟩

namespace Store

variable {s : Store}

/-- Where the rows that a query picks out are the rows of entries, these are the answer. -/
theorem entries_of_rows {order : LedgerRow → LedgerRow → Ordering} {test : LedgerRow → Bool}
    {es : List LedgerEntry}
    (h : es.map LedgerEntry.row = Sorting.sortBy (notAfter order) (s.ledger.filter test)) :
    s.entries order test = .ok es := by
  rw [entries, ← h]
  exact LedgerEntry.mapM_decode_row es

/-- **The rows that a query picks out are the rows of the entries it answers with.** -/
theorem WellFormed.exists_entries (hs : s.WellFormed) (order : LedgerRow → LedgerRow → Ordering)
    (test : LedgerRow → Bool) : ∃ es : List LedgerEntry, s.entries order test = .ok es ∧
      es.map LedgerEntry.row = Sorting.sortBy (notAfter order) (s.ledger.filter test) := by
  have hrows : Sorting.sortBy (notAfter order) (s.ledger.filter test) ∈
      Set.range (List.map LedgerEntry.row) := by
    rw [Set.range_list_map]
    intro r hr
    have hmem := (List.mem_filter.1 ((Sorting.mem_sortBy _).1 hr)).1
    obtain ⟨e, rfl⟩ := (hs.rows r hmem).exists_entry
    exact ⟨e, rfl⟩
  obtain ⟨es, hes⟩ := hrows
  exact ⟨es, entries_of_rows hes, hes⟩

end Store

namespace Indexer

/-- **Every store is intact in every state**: of every network, after any calls, answered or refused. -/
theorem stores_intact (network : Network) (config : Config) (calls : List Call) (other : Network) :
    ((run network config calls).storeOf other).Intact := by
  obtain ⟨answered, past, hist⟩ := reachable_run network config calls
  exact (wellFormed_of_history hist _ List.mem_cons_self other).intact

end Indexer

end WalletLedger
