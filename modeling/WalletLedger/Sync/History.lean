import WalletLedger.Store.Wallet

/-!
# Does a block lie on a wallet's history?

The wallet knows its tip and, through its locator, some ancestors. A block below the tip is compared
at the highest of those ancestors that it does not lie under.
-/

namespace WalletLedger

namespace Wallet

/-- The highest recorded ancestor at or below a height, with its own height. -/
def ancestorAt? (tip : BlockRef) (locator : List Hash256) (height : UInt32) :
    Option (UInt32 × Hash256) :=
  ((locatorHeights tip.height).zip locator).find? fun entry => decide (entry.1 ≤ height)

/-- Whether a block lies on the history a wallet has synced. No block asks for nothing. Below the
tip, the recorded ancestor is compared with the chain of the block at its height. -/
def contains (w : Wallet) (header : Option BlockRef) (chain : ChainView) : Result Bool :=
  match header, w.tip with
  | none, _ => .ok true
  | some _, none => .ok false
  | some header, some tip =>
    if tip.height < header.height then .ok false
    else if header.height = tip.height then .ok (header.hash == tip.hash)
    else
      match ancestorAt? tip w.locator header.height with
      | none => .ok true
      | some (height, recorded) =>
        (BlockLocator.ancestor header chain height).map (· == recorded)

/-- Refuses a wallet whose history does not hold a block. -/
def ensureContains (w : Wallet) (header : BlockRef) (chain : ChainView) : Result Unit := do
  if ← w.contains (some header) chain then return ()
  else throw (.resyncRequired w.name header.height)

end Wallet

end WalletLedger
