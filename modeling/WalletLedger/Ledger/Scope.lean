import WalletLedger.Store.Wallet
import WalletLedger.Config

/-!
# The wallets a batch applies to

A batch with a header applies to the wallets synced to its parent; a mode may name a single wallet.
-/

namespace WalletLedger

/-- Which wallets take part in a batch. -/
structure Scope where
  /-- The only wallet, if one is named. -/
  walletName : Option String
  /-- The block that a wallet has to be synced to, if the batch has a header. -/
  parent : Option Hash256
  deriving DecidableEq

/-- The scope of a batch under a configuration. -/
def Scope.ofBatch (config : Config) (header : Option BatchHeader) : Scope :=
  ⟨config.mode.walletName, header.map (·.parent)⟩

/-- Whether a wallet takes part. -/
def Scope.covers (scope : Scope) (w : WalletRow) : Bool :=
  scope.walletName.all (· == w.name) && scope.parent.all (·.bytes == w.hash)

/-- Whether the wallet with an id takes part. -/
def Store.inScope (s : Store) (scope : Scope) (wallet : Int) : Bool :=
  s.wallets.any fun w => w.id == wallet && scope.covers w

end WalletLedger
