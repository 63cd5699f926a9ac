import WalletLedger.Ledger.Scope

/-!
# Recording spends

A staged spend of a ledger row's output fills the spend side of the row, unless a confirmed spend is
there already. The outputs of the spending transaction become the payments of the row.

* `Store.key_matchSpends`: recording spends keeps every row and its deposit side.
-/

namespace WalletLedger

/-- The spends that name the output of a row. -/
def LedgerRow.spendsIn (r : LedgerRow) (spends : List StagedSpend) : List StagedSpend :=
  spends.filter fun sp => sp.prevOut.txid.bytes == r.key.txid && sp.prevOut.vout == r.key.vout

/-- The spend side that a spend writes. -/
def SpendSide.ofSpend (sp : StagedSpend) : SpendSide :=
  { height := sp.block.map (·.height)
    hash := sp.block.map (·.hash.bytes)
    coinbase := some sp.coinbase
    time := some sp.time
    txid := some sp.txid.bytes
    totalOut := some sp.totalOut }

/-- The row with the last of its spends recorded; without spends it stays. -/
def LedgerRow.spendBy (r : LedgerRow) (spends : List StagedSpend) : LedgerRow :=
  match (r.spendsIn spends).getLast? with
  | some sp => { r with spend := SpendSide.ofSpend sp }
  | none => r

theorem LedgerRow.key_spendBy (r : LedgerRow) (spends : List StagedSpend) :
    (r.spendBy spends).key = r.key ∧ (r.spendBy spends).deposit = r.deposit := by
  unfold LedgerRow.spendBy
  split <;> exact ⟨rfl, rfl⟩

/-- The payments of a row that a batch records: the staged outputs of its spending transactions. -/
def LedgerRow.paymentsIn (r : LedgerRow) (batch : Batch) : List PaymentRow :=
  (r.spendsIn batch.spends).flatMap fun sp =>
    (batch.outputs.filter (·.outpoint.txid == sp.txid)).map fun o =>
      ⟨r.source, o.outpoint.vout, o.redeem, o.value⟩

/-- Adds a payment; one with the same source and index gives way. -/
def insertPayment (payments : List PaymentRow) (p : PaymentRow) : List PaymentRow :=
  payments.filter (fun q => !(q.source == p.source && q.index == p.index)) ++ [p]

namespace Store

/-- Whether a batch spends a row: the row is in scope, its output is spent by the batch, and no
confirmed spend is recorded. -/
def isSpentBy (s : Store) (scope : Scope) (spends : List StagedSpend) (r : LedgerRow) : Bool :=
  s.inScope scope r.key.address.group.wallet && !r.spend.isConfirmed &&
    !(r.spendsIn spends).isEmpty

/-- Records the spends of a batch and the payments they make, and counts the rows spent. -/
def matchSpends (s : Store) (scope : Scope) (batch : Batch) : Nat × Store :=
  let spent := s.ledger.filter (s.isSpentBy scope batch.spends)
  let kept := s.payments.filter fun p => !spent.any (·.source == p.source)
  (spent.length,
    { s with
      ledger := s.ledger.map fun r =>
        if s.isSpentBy scope batch.spends r then r.spendBy batch.spends else r
      payments := (spent.flatMap (·.paymentsIn batch)).foldl insertPayment kept })

theorem key_matchSpends (s : Store) (scope : Scope) (batch : Batch) :
    (s.matchSpends scope batch).2.ledger.map (fun r => (r.key, r.deposit)) =
      s.ledger.map fun r => (r.key, r.deposit) := by
  simp only [matchSpends, List.map_map]
  refine List.map_congr_left fun r _ => ?_
  simp only [Function.comp_def]
  split
  · rw [(r.key_spendBy _).1, (r.key_spendBy _).2]
  · rfl

end Store

end WalletLedger
