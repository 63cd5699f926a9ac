import WalletLedger.Indexer

/-!
# Histories of an indexer

An indexer is opened on empty stores and answers calls from then on. A history records the calls and
the states between them, so that a theorem can speak of what happened earlier.

* `Indexer.History`: the calls of an indexer and its states, the latest first.
* `Indexer.Reachable`: the states that some history ends in.
* `Indexer.storeOf`: the store of a network, which is the open one or one that waits.
-/

namespace WalletLedger

/-- A call that may change an indexer. -/
inductive Call where
  | createWallet (new : NewWallet) (tip : Option BlockRef) (chain : ChainView)
  | createAccount (wallet : String) (index : UInt32) (name extendedKey : String) (created : UInt32)
  | processBatch (batch : Batch) (header : Option BatchHeader) (chain : ChainView)
  | processBlock (placed : PlacedBlock) (chain : ChainView)
  | processBlocks (blocks : List PlacedBlock) (chain : ChainView)
  | processTransaction (tx : Transaction) (time : UInt32)
  | rollback (wallet : String) (target : UInt32) (chain : ChainView)
  | removeUnconfirmed (wallet : String) (txid : Hash256)
  | reopen (network : Network) (config : Config)

/-- The batch that a call stages. -/
def Call.batch? : Call → Option Batch
  | .processBatch batch _ _ => some batch
  | .processBlock placed _ => some (Batch.ofBlock placed)
  | .processBlocks blocks _ => some (Batch.ofBlocks blocks)
  | .processTransaction tx time => some (Batch.ofTransaction tx time none)
  | _ => none

/-- The transactions that a call hands over whole. -/
def Call.transactions : Call → List Transaction
  | .processBlock placed _ => placed.block.transactions
  | .processBlocks blocks _ => blocks.flatMap (·.block.transactions)
  | .processTransaction tx _ => [tx]
  | _ => []

/-- Whether a call hands over outputs and spends that the caller staged. -/
def Call.isStagedByCaller : Call → Bool
  | .processBatch _ _ _ => true
  | _ => false

namespace Indexer

/-- The state after a call. -/
def perform (ix : Indexer) : Call → Result Indexer
  | .createWallet new tip chain => (ix.createWallet new tip chain).map (·.2)
  | .createAccount wallet index name extendedKey created =>
    (ix.createAccount wallet index name extendedKey created).map (·.2)
  | .processBatch batch header chain => (ix.processBatch batch header chain).map (·.2)
  | .processBlock placed chain => (ix.processBlock placed chain).map (·.2)
  | .processBlocks blocks chain => (ix.processBlocks blocks chain).map (·.2)
  | .processTransaction tx time => (ix.processTransaction tx time).map (·.2)
  | .rollback wallet target chain => (ix.rollback wallet target chain).map (·.2)
  | .removeUnconfirmed wallet txid => (ix.removeUnconfirmed wallet txid).map (·.2)
  | .reopen network config => .ok (ix.reopen network config)

/-- The store of a network, open or as it was left. -/
def storeOf (ix : Indexer) (network : Network) : Store :=
  if network = ix.network then ix.store else ix.closed network

/-- The calls that an indexer has answered and its states, the latest first. The opening counts as a
call; refused calls change nothing and are left out. -/
inductive History : List Call → List Indexer → Prop
  | opened (network : Network) (config : Config) :
      History [.reopen network config] [fresh network config]
  | called {calls : List Call} {past : List Indexer} {ix ix' : Indexer} {call : Call}
      (before : History calls (ix :: past)) (answer : ix.perform call = .ok ix') :
      History (call :: calls) (ix' :: ix :: past)

/-- Some history ends in this state. -/
def Reachable (ix : Indexer) : Prop := ∃ calls past, History calls (ix :: past)

end Indexer

end WalletLedger
