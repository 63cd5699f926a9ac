import WalletLedger.Store.Wallet

/-!
# Undoing

Two operations take ledger data back: a rollback takes what blocks above a height recorded, and a
removal what an unconfirmed transaction recorded. Both drop the payments of the rows they change.
-/

namespace WalletLedger

/-- Whether a recorded height lies above a bound. -/
def isAbove (bound : UInt32) (height : Option UInt32) : Bool := height.any (bound < ·)

namespace Store

/-- The payments that stem from none of the rows in `rows`. -/
def paymentsWithout (s : Store) (rows : LedgerRow → Bool) : List PaymentRow :=
  s.payments.filter fun p => !s.ledger.any fun r => rows r && r.source == p.source

/-- Takes back what a wallet recorded above a height: deposits above it are deleted, spends above it
are cleared. -/
def undoAbove (s : Store) (wallet : Int) (bound : UInt32) : Store :=
  let owned (r : LedgerRow) : Bool := r.key.address.group.wallet == wallet
  let kept := s.ledger.filter fun r => !(owned r && isAbove bound r.deposit.height)
  { s with
    payments := s.paymentsWithout fun r =>
      owned r && (isAbove bound r.spend.height || isAbove bound r.deposit.height)
    ledger := kept.map fun r =>
      if owned r && isAbove bound r.spend.height then { r with spend := .unspent } else r }

/-- Whether a row of a wallet holds an unconfirmed deposit of a transaction. -/
def isPendingDeposit (wallet : Int) (txid : Hash256) (r : LedgerRow) : Bool :=
  r.key.address.group.wallet == wallet && r.key.txid == txid.bytes && r.deposit.isUnconfirmed

/-- Whether a row of a wallet holds an unconfirmed spend by a transaction. -/
def isPendingSpend (wallet : Int) (txid : Hash256) (r : LedgerRow) : Bool :=
  r.key.address.group.wallet == wallet && r.spend.txid == some txid.bytes && r.spend.isUnconfirmed

/-- Takes back what an unconfirmed transaction recorded in a wallet: its deposits are deleted, its
spends cleared. Counts the rows deleted and cleared. -/
def dropUnconfirmed (s : Store) (wallet : Int) (txid : Hash256) : Nat × Store :=
  let kept := s.ledger.filter fun r => !isPendingDeposit wallet txid r
  let deleted := s.ledger.countP (isPendingDeposit wallet txid)
  let cleared := kept.countP (isPendingSpend wallet txid)
  (deleted + cleared,
    { s with
      payments := s.paymentsWithout fun r =>
        isPendingSpend wallet txid r || isPendingDeposit wallet txid r
      ledger := kept.map fun r =>
        if isPendingSpend wallet txid r then { r with spend := .unspent } else r })

end Store

end WalletLedger
