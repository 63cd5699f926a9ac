import WalletLedger.Ledger.Scope
import WalletLedger.Ledger.Undo

/-!
# Moving the tips of wallets

A batch of blocks moves the wallets in its scope forward, and a rollback moves one wallet back.
-/

namespace WalletLedger

namespace Store

/-- Moves the wallets in scope to the tip of a header and names them in the order of their ids. The
chain is read only if there is such a wallet; without a header nothing moves. -/
def advance (s : Store) (scope : Scope) (header : Option BatchHeader) (chain : ChainView) :
    Result (List String × Store) :=
  let moving := s.wallets.filter scope.covers
  match header with
  | none => .ok ([], s)
  | some header =>
    if moving = [] then .ok ([], s)
    else do
      let locator ← BlockLocator.build header.tip chain
      return (moving.map (·.name),
        moving.foldl (fun s w => s.setTip w.id header.tip locator.hashes) s)

/-- Moves a wallet back to the chain's block at a height and undoes what lies above it. Tells
whether the wallet was above that height; otherwise nothing changes. -/
def rollback (s : Store) (w : Wallet) (target : UInt32) (chain : ChainView) :
    Result (Bool × Store) :=
  if w.tip.any (target < ·.height) then
    match chain target with
    | none => .error (.blockNotFound target)
    | some hash => do
      let tip : BlockRef := ⟨target, hash⟩
      let locator ← BlockLocator.build tip chain
      return (true, (s.undoAbove w.id target).setTip w.id tip locator.hashes)
  else .ok (false, s)

end Store

end WalletLedger
