import WalletLedger.Ledger.Deposit
import WalletLedger.Ledger.Spend
import WalletLedger.Sync.Tip

/-!
# Applying a batch

A batch is applied to the wallets in its scope: deposits first, then spends, which may be of the
deposits just recorded. With a header the wallets move to its tip afterwards.
-/

namespace WalletLedger

/-- What a batch has done. -/
structure BatchOutcome where
  /-- Ledger rows that deposits wrote. -/
  deposits : Nat
  /-- Ledger rows that received a spend. -/
  spends : Nat
  /-- Rounds of matching deposits. -/
  iterations : Nat
  /-- The scripts of new addresses, in the order they were derived. -/
  newScripts : List Script
  /-- The wallets that moved to the tip of the header. -/
  advanced : List String
  deriving DecidableEq

/-- The outcome of a batch that is not looked at. -/
def BatchOutcome.none : BatchOutcome := ⟨0, 0, 0, [], []⟩

/-- Applies a batch; without a header its transactions are unconfirmed and no tip moves. -/
def Store.applyBatch (s : Store) (config : Config) (batch : Batch) (header : Option BatchHeader)
    (chain : ChainView) : Result (BatchOutcome × Store) := do
  let scope := Scope.ofBatch config header
  let (found, deposited) ←
    s.matchDeposits scope config.topUpBuffer batch.outputs s.pools []
  let (spends, spent) := deposited.matchSpends scope batch
  let (advanced, moved) ← spent.advance scope header chain
  let newScripts := found.created.map (·.scripts.toKeyHash)
  return (⟨found.deposits, spends, found.iterations, newScripts, advanced⟩, moved)

end WalletLedger
