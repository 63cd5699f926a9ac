import WalletLedger.Store.Row
import WalletLedger.Error

/-!
# Ledger entries

A ledger entry is a row read back into the types of the domain. A side without a height or without a
hash is read as unconfirmed; a row without a spending transaction is unspent.
-/

namespace WalletLedger

/-- The spend of a ledger entry. -/
structure SpendInfo where
  txid : Hash256
  time : UInt32
  /-- Absent while the spending transaction is unconfirmed. -/
  block : Option BlockRef
  coinbase : Bool
  /-- The sum of the spending transaction's outputs. -/
  totalOut : UInt64
  deriving DecidableEq

/-- An output received by an address of a wallet. -/
structure LedgerEntry where
  address : AddressId
  redeem : Script
  script : Script
  outpoint : OutPoint
  value : UInt64
  /-- Absent while the output is unconfirmed. -/
  block : Option BlockRef
  time : UInt32
  coinbase : Bool
  spend : Option SpendInfo
  deriving DecidableEq

/-- Whether the output is in a block. -/
def LedgerEntry.isConfirmed (e : LedgerEntry) : Bool := e.block.isSome

/-- Whether a spend is recorded. -/
def LedgerEntry.isSpent (e : LedgerEntry) : Bool := e.spend.isSome

/-- One destination of a transaction that spends a ledger entry. -/
structure Payment where
  /-- The time of the spent output. -/
  time : UInt32
  /-- The spent output. -/
  outpoint : OutPoint
  /-- The position in the spending transaction. -/
  index : UInt32
  script : Script
  value : UInt64
  deriving DecidableEq

/-- Reads the two block columns of a side. -/
def readBlock (height : Option UInt32) (hash : Option Bytes) : Result (Option BlockRef) :=
  match height, hash with
  | some height, some hash => (readBlockHash hash).map fun hash => some ⟨height, hash⟩
  | _, _ => .ok none

/-- Reads a spend side: the transaction, then the block. -/
def SpendSide.decode (s : SpendSide) : Result (Option SpendInfo) :=
  match s.txid with
  | none => .ok none
  | some txid => do
    let txid ← readTxid txid
    let block ← readBlock s.height s.hash
    return some ⟨txid, s.time.getD 0, block, s.coinbase.getD false, s.totalOut.getD 0⟩

/-- Reads a row: the spend, then the output, then its block. -/
def LedgerRow.decode (r : LedgerRow) : Result LedgerEntry := do
  let spend ← r.spend.decode
  let txid ← readTxid r.key.txid
  let block ← readBlock r.deposit.height r.deposit.hash
  return { address := r.key.address
           redeem := r.key.redeem
           script := r.deposit.script
           outpoint := ⟨txid, r.key.vout⟩
           value := r.deposit.value
           block := block
           time := r.deposit.time
           coinbase := r.deposit.coinbase
           spend := spend }

/-- Reads a payment. -/
def PaymentRow.decode (p : PaymentRow) : Result Payment := do
  let txid ← readTxid p.source.txid
  return ⟨p.source.time, ⟨txid, p.source.vout⟩, p.index, p.script, p.value⟩

end WalletLedger
