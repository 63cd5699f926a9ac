import WalletLedger.Ledger.Entry
import WalletLedger.Store.Pool
import WalletLedger.Sorting

/-!
# Queries

Answers read from a store. Every list has an order of its own, completed by the ledger's key where
rows would tie, so that an answer does not depend on the order of insertion.
-/

namespace WalletLedger

open Sorting

/-- What an account holds unspent. -/
structure AccountBalance where
  /-- Satoshis in blocks. -/
  confirmed : UInt64
  /-- Satoshis not yet in a block. -/
  unconfirmed : UInt64
  /-- The number of unspent outputs. -/
  utxoCount : Nat
  deriving DecidableEq

/-- Adds two signed words, unless the sum leaves their range. -/
def addSigned? (a b : Int64) : Option Int64 :=
  if (a + b).toInt = a.toInt + b.toInt then some (a + b) else none

/-- Adds amounts as signed words; no sum on the way may leave their range. -/
def signedSum? (values : List UInt64) : Option Int64 :=
  values.foldlM (fun sum v => addSigned? sum v.toInt64) 0

namespace Store

/-! ## Wallets and accounts -/

/-- All wallets, by id. -/
def allWallets (s : Store) : Result (List Wallet) := s.wallets.mapM (·.decode)

/-- The accounts of a wallet id, by index. -/
def accountsOf (s : Store) (wallet : Int) : List Account :=
  sortBy (notAfter (compareOn (·.index))) (s.accounts.filter (·.wallet == wallet))

/-- The accounts of a wallet, by index. -/
def accountList (s : Store) (wallet : String) : Result (List Account) := do
  let w ← s.wallet wallet
  return s.accountsOf w.id

/-- The first account of a wallet that has a name. The wallet's own columns are not read. -/
def accountNamed? (s : Store) (wallet account : String) : Option Account := do
  let row ← s.walletRow? wallet
  (s.accountsOf row.id).find? (·.name == account)

/-! ## Addresses -/

/-- The addresses of a pool, by index. -/
def poolList (s : Store) (g : AddressGroup) : List Address :=
  sortBy (notAfter (compareOn (·.id.index))) (s.pool g)

/-- The addresses of a pool that have ledger rows. -/
def usedAddresses (s : Store) (g : AddressGroup) : List Address :=
  (s.poolList g).filter fun a => s.isUsed a.id

/-- Up to `count` addresses of a pool after the last used one. -/
def unusedAddresses (s : Store) (g : AddressGroup) (count : Nat) : List Address :=
  ((s.poolList g).filter fun a => decide (s.nextUnused g ≤ a.id.index.toNat)).take count

/-! ## The ledger -/

/-- Reads the rows that pass a test, in an order. -/
def entries (s : Store) (order : LedgerRow → LedgerRow → Ordering) (test : LedgerRow → Bool) :
    Result (List LedgerEntry) :=
  (sortBy (notAfter order) (s.ledger.filter test)).mapM (·.decode)

/-- By address and output. -/
def byKey : LedgerRow → LedgerRow → Ordering := fun a b => a.key.order b.key

/-- The ledger of a wallet id, by address and output. -/
def ledgerOf (s : Store) (wallet : Int) : Result (List LedgerEntry) :=
  s.entries byKey fun r => r.key.address.group.wallet == wallet

/-- The ledger of a wallet. -/
def ledgerEntries (s : Store) (wallet : String) : Result (List LedgerEntry) := do
  let w ← s.wallet wallet
  s.ledgerOf w.id

/-- The entries of an address, by time and output. -/
def addressEntries (s : Store) (address : AddressId) : Result (List LedgerEntry) :=
  s.entries
    (compareLex (compareOn (·.deposit.time))
      (compareLex (fun a b => a.key.outputOrder b.key) byKey))
    fun r => r.key.address == address

/-- Whether a row belongs to an account and names no spending transaction. -/
def isUnspentOf (wallet : Int) (account : UInt32) (r : LedgerRow) : Bool :=
  r.key.address.group.wallet == wallet && r.key.address.group.account == account &&
    r.spend.txid.isNone

/-- Whether an output can be spent in the block after `current`: it has the wanted number of
confirmations, none admitting an unconfirmed output, and a coinbase output has matured. -/
def isMature (current maturity confirmations : UInt32) (d : DepositSide) : Bool :=
  match d.height with
  | none => confirmations == 0
  | some height =>
    let depth : Int := (current.toNat : Int) - height.toNat + 1
    decide ((confirmations.toNat : Int) ≤ depth) &&
      (!d.coinbase || decide ((maturity.toNat : Int) ≤ depth))

/-- The outputs of an account that can be spent: unconfirmed ones first, then by height. -/
def spendableOutputs (s : Store) (wallet : Int) (account : UInt32)
    (current maturity confirmations : UInt32) : Result (List LedgerEntry) :=
  s.entries
    (compareLex (compareOn (·.deposit.height))
      (compareLex (fun a b => a.key.outputOrder b.key) byKey))
    fun r => isUnspentOf wallet account r && isMature current maturity confirmations r.deposit

/-- The order in which an account's rows are added up: by address, redeem script and output. -/
def byScript : LedgerRow → LedgerRow → Ordering :=
  compareLex (fun a b => a.key.address.order b.key.address)
    (compareLex (compareOn (·.key.redeem)) (fun a b => a.key.outputOrder b.key))

/-- The sums of an account's unspent outputs, in and outside blocks. -/
def balance (s : Store) (wallet : Int) (account : UInt32) : Result AccountBalance :=
  let rows := sortBy (notAfter byScript) (s.ledger.filter (isUnspentOf wallet account))
  let (mined, pending) := rows.partition fun r => r.deposit.height.isSome
  match signedSum? (mined.map (·.deposit.value)), signedSum? (pending.map (·.deposit.value)) with
  | some confirmed, some unconfirmed =>
    .ok ⟨confirmed.toUInt64, unconfirmed.toUInt64, rows.length⟩
  | _, _ => .error (.store .overflow)

/-! ## Payments -/

/-- By time and position. -/
def paymentOrder : PaymentRow → PaymentRow → Ordering :=
  compareLex (compareOn (·.source.time)) (compareOn (·.index))

instance : Std.TransCmp paymentOrder := by
  unfold paymentOrder
  infer_instance

/-- The payments of the transaction that spends an output. -/
def paymentsFor (s : Store) (o : OutPoint) : Result (List Payment) :=
  (sortBy (notAfter paymentOrder)
    (s.payments.filter fun p => p.source.txid == o.txid.bytes && p.source.vout == o.vout)).mapM
      (·.decode)

/-- All payments, by output, time and position. -/
def allPayments (s : Store) : Result (List Payment) :=
  (sortBy
    (notAfter (compareLex (compareOn (·.source.txid))
      (compareLex (compareOn (·.source.vout)) paymentOrder)))
    s.payments).mapM (·.decode)

end Store

end WalletLedger
