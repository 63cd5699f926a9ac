/-!
# Networks

Extended keys tell only the main network from the test networks; every network has its own store.
-/

namespace WalletLedger

/-- What the version bytes of an extended key distinguish. -/
inductive NetworkKind where
  | main
  | test
  deriving DecidableEq

/-- The networks a store can belong to. -/
inductive Network where
  | bitcoin
  | testnet
  | testnet4
  | signet
  | regtest
  deriving DecidableEq

/-- All but one are test networks. -/
def Network.kind : Network → NetworkKind
  | .bitcoin => .main
  | .testnet | .testnet4 | .signet | .regtest => .test

/-- The name of a kind in messages. -/
def NetworkKind.name : NetworkKind → String
  | .main => "Main"
  | .test => "Test"

end WalletLedger
