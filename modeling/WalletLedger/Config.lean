/-!
# Configuration

How many unused addresses every pool keeps, and which wallets a batch is matched against.
-/

namespace WalletLedger

/-- Which wallets a batch is matched against. -/
inductive BatchMode where
  | allWallets
  | singleWallet (name : String)
  deriving DecidableEq

/-- The only wallet a batch is matched against, if it is one. -/
def BatchMode.walletName : BatchMode → Option String
  | .allWallets => none
  | .singleWallet name => some name

/-- The settings of an indexer. -/
structure Config where
  /-- How many addresses follow the last used one of a pool. -/
  topUpBuffer : UInt64 := 20
  mode : BatchMode := .allWallets
  deriving DecidableEq

end WalletLedger
