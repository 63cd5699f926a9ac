import WalletLedger.Bitcoin.Block
import WalletLedger.Error

/-!
# Batches

A batch holds what was seen in blocks or in a mempool transaction: the outputs, each under the
script that addresses are matched on, and the spends. The header of a batch of blocks says which
wallets it extends and where it takes them.

* `Batch.ofBlocks_append`: the batch of joined block lists joins their batches.
* `BatchHeader.ofBlocks`: accepts blocks that form a chain, and names the first that does not fit.
-/

namespace WalletLedger

/-- A transaction output that was seen. -/
structure StagedOutput where
  /-- The script that addresses are matched on. -/
  script : Script
  /-- The script as the transaction has it. -/
  redeem : Script
  value : UInt64
  outpoint : OutPoint
  /-- Absent in the mempool. -/
  block : Option BlockRef
  time : UInt32
  coinbase : Bool
  deriving DecidableEq

/-- A transaction input that was seen. -/
structure StagedSpend where
  /-- The spending transaction. -/
  txid : Hash256
  time : UInt32
  /-- Absent in the mempool. -/
  block : Option BlockRef
  coinbase : Bool
  /-- The sum of the spending transaction's outputs. -/
  totalOut : UInt64
  /-- The output that is spent. -/
  prevOut : OutPoint
  deriving DecidableEq

/-- Outputs and spends in the order they were seen. -/
structure Batch where
  outputs : List StagedOutput
  spends : List StagedSpend
  deriving DecidableEq

namespace Batch

/-- The batch that holds nothing. -/
def empty : Batch := ⟨[], []⟩

/-- Batches one after another. -/
def concat (batches : List Batch) : Batch :=
  ⟨batches.flatMap (·.outputs), batches.flatMap (·.spends)⟩

/-- Whether nothing was seen. -/
def isEmpty (b : Batch) : Bool := b.outputs.isEmpty && b.spends.isEmpty

/-- The outputs of a transaction, and its spends unless it is a coinbase. -/
def ofTransaction (tx : Transaction) (time : UInt32) (block : Option BlockRef) : Batch :=
  let txid := tx.txid
  let coinbase := tx.isCoinbase
  let totalOut := tx.totalOut
  { outputs := tx.outputs.zipIdx.map fun (output, vout) =>
      { script := output.script.normal
        redeem := output.script
        value := output.value
        outpoint := ⟨txid, UInt32.ofNat vout⟩
        block, time, coinbase }
    spends :=
      if coinbase then []
      else tx.inputs.map fun input =>
        { txid, time, block, coinbase, totalOut, prevOut := input.prevOut } }

/-- The transactions of a block, in their order. -/
def ofBlock (placed : PlacedBlock) : Batch :=
  let ref := placed.ref
  concat (placed.block.transactions.map fun tx => ofTransaction tx placed.block.time (some ref))

/-- The blocks of a list, in their order. -/
def ofBlocks (blocks : List PlacedBlock) : Batch := concat (blocks.map ofBlock)

theorem concat_append (xs ys : List Batch) :
    concat (xs ++ ys) = concat [concat xs, concat ys] := by simp [concat]

theorem ofBlocks_append (xs ys : List PlacedBlock) :
    ofBlocks (xs ++ ys) = concat [ofBlocks xs, ofBlocks ys] := by
  rw [ofBlocks, List.map_append, concat_append]; rfl

end Batch

/-- Where a batch of blocks takes the wallets that it extends. -/
structure BatchHeader where
  /-- The block before the first one of the batch. -/
  parent : Hash256
  /-- The last block of the batch. -/
  tip : BlockRef
  deriving DecidableEq

namespace BatchHeader

/-- The first block that does not extend the one before it. -/
def firstBreak? : List PlacedBlock → Option PlacedBlock
  | [] => none
  | [_] => none
  | a :: b :: rest =>
    if b.height = a.height + 1 ∧ b.block.prev = a.block.hash then firstBreak? (b :: rest)
    else some b

/-- The header of consecutive blocks; no blocks have none. -/
def ofBlocks (blocks : List PlacedBlock) : Result (Option BatchHeader) :=
  match blocks with
  | [] => .ok none
  | first :: rest =>
    match firstBreak? (first :: rest) with
    | some broken => .error (.nonContiguousBatch broken.height broken.block.hash)
    | none => .ok (some ⟨first.block.prev, ((first :: rest).getLast (List.cons_ne_nil _ _)).ref⟩)

end BatchHeader

end WalletLedger
