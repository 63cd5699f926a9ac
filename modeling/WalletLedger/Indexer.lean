import WalletLedger.Ledger.Apply
import WalletLedger.Query
import WalletLedger.Sync.History
import WalletLedger.WatchList

/-!
# The indexer

The state of an indexer on one network and the calls that change it. A call answers with the next
state or is refused; a refused call changes nothing.
-/

namespace WalletLedger

/-- An open indexer, together with the stores of the other networks as they were left. -/
structure Indexer where
  network : Network
  config : Config
  store : Store
  watched : WatchList
  closed : Network → Store

/-- The type of receiving addresses. -/
def receivingKind : UInt32 := 0

/-- The type of change addresses. -/
def changeKind : UInt32 := 1

namespace Indexer

/-- An indexer on empty stores. -/
def fresh (network : Network) (config : Config) : Indexer :=
  ⟨network, config, Store.empty, WatchList.empty, fun _ => Store.empty⟩

/-- Closes the store and opens that of a network, under a configuration. The watched scripts are
those of its addresses. -/
def reopen (ix : Indexer) (network : Network) (config : Config) : Indexer :=
  let stores : Network → Store := fun n => if n = ix.network then ix.store else ix.closed n
  let store := stores network
  { network := network
    config := config
    store := store
    watched := WatchList.ofList (store.addresses.map (·.scripts.toKeyHash))
    closed := stores }

/-- Creates a wallet synced to a block, or to nothing. -/
def createWallet (ix : Indexer) (new : NewWallet) (tip : Option BlockRef) (chain : ChainView) :
    Result (Wallet × Indexer) := do
  let locator ← BlockLocator.ofTip tip chain
  let store ← ix.store.insertWallet new tip locator.hashes
  let wallet ← store.wallet new.name
  return (wallet, { ix with store := store })

/-- Accepts an extended key of the network's kind. -/
def checkNetwork (network : Network) (key : ExtendedKey) : Result Unit :=
  if key.network = network.kind then .ok ()
  else .error (.networkMismatch network.kind key.network)

/-- Creates an account and fills its pools of receiving and change addresses. -/
def createAccount (ix : Indexer) (wallet : String) (index : UInt32) (name extendedKey : String)
    (created : UInt32) : Result (Account × Indexer) := do
  let key ← Result.ofDerivation (ExtendedKey.ofText extendedKey)
  checkNetwork ix.network key
  let owner ← ix.store.wallet wallet
  let account : Account := ⟨owner.id, index, name, extendedKey, created⟩
  let opened ← ix.store.insertAccount account
  let pools : List AddressGroup := [⟨owner.id, index, receivingKind⟩, ⟨owner.id, index, changeKind⟩]
  let (addresses, store) ← Store.extendPools ix.config.topUpBuffer pools opened
  return (account,
    { ix with
      store := store
      watched := ix.watched.extend (addresses.map (·.scripts.toKeyHash)) })

/-- Applies a batch and watches the scripts that it derives. -/
def processBatch (ix : Indexer) (batch : Batch) (header : Option BatchHeader) (chain : ChainView) :
    Result (BatchOutcome × Indexer) := do
  let (outcome, store) ← ix.store.applyBatch ix.config batch header chain
  return (outcome, { ix with store := store, watched := ix.watched.extend outcome.newScripts })

/-- Applies a block. -/
def processBlock (ix : Indexer) (placed : PlacedBlock) (chain : ChainView) :
    Result (BatchOutcome × Indexer) :=
  ix.processBatch (Batch.ofBlock placed) (some ⟨placed.block.prev, placed.ref⟩) chain

/-- Applies consecutive blocks as one batch; the view is extended by the blocks. -/
def processBlocks (ix : Indexer) (blocks : List PlacedBlock) (chain : ChainView) :
    Result (BatchOutcome × Indexer) :=
  match BatchHeader.ofBlocks blocks with
  | .error e => .error e
  | .ok none => .ok (BatchOutcome.none, ix)
  | .ok (some header) =>
    ix.processBatch (Batch.ofBlocks blocks) (some header) (chain.withBlocks blocks)

/-- Applies a transaction seen in the mempool. Without a header no chain is read. -/
def processTransaction (ix : Indexer) (tx : Transaction) (time : UInt32) :
    Result (BatchOutcome × Indexer) :=
  ix.processBatch (Batch.ofTransaction tx time none) none fun _ => none

/-- Moves a wallet back to a height. Tells whether it was above it. -/
def rollback (ix : Indexer) (wallet : String) (target : UInt32) (chain : ChainView) :
    Result (Bool × Indexer) := do
  let w ← ix.store.wallet wallet
  let (moved, store) ← ix.store.rollback w target chain
  return (moved, { ix with store := store })

/-- Takes back what an unconfirmed transaction recorded in a wallet. Counts the rows changed. -/
def removeUnconfirmed (ix : Indexer) (wallet : String) (txid : Hash256) :
    Result (Nat × Indexer) := do
  let w ← ix.store.wallet wallet
  let (changed, store) := ix.store.dropUnconfirmed w.id txid
  return (changed, { ix with store := store })

/-- Whether a block lies on the history of a wallet. -/
def containsBlock (ix : Indexer) (wallet : String) (header : Option BlockRef) (chain : ChainView) :
    Result Bool := do
  let w ← ix.store.wallet wallet
  w.contains header chain

/-- Refuses a wallet whose history does not hold a block. -/
def ensureContainsBlock (ix : Indexer) (wallet : String) (header : BlockRef) (chain : ChainView) :
    Result Unit := do
  let w ← ix.store.wallet wallet
  w.ensureContains header chain

/-- Whether outputs that pay a script may concern a wallet. -/
def isOfInterest (ix : Indexer) (script : Script) : Bool := ix.watched.contains script

end Indexer

end WalletLedger
