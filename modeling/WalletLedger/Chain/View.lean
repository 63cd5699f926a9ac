import WalletLedger.Bitcoin.Block

/-!
# Views of the best chain

The library never stores the chain. It is handed a view, which names the block at each height.

* `HashChain.view_push`: pushing adds a block at the next height and changes nothing below.
* `HashChain.view_truncate`: truncating keeps exactly the blocks up to a height.
* `ChainView.withBlocks_of_find?`: the blocks of a batch come before those of the view under it.
-/

namespace WalletLedger

/-- The name of the block at each height, where the chain has one. -/
abbrev ChainView := UInt32 → Option Hash256

/-- A chain held as the list of its block names, from height zero on. -/
structure HashChain where
  hashes : List Hash256
  deriving DecidableEq

namespace HashChain

/-- The chain without blocks. -/
def empty : HashChain := ⟨[]⟩

/-- The view of a chain. -/
def view (c : HashChain) : ChainView := fun height => c.hashes[height.toNat]?

/-- Appends a block. -/
def push (c : HashChain) (hash : Hash256) : HashChain := ⟨c.hashes ++ [hash]⟩

/-- Drops the blocks above a height. -/
def truncate (c : HashChain) (height : UInt32) : HashChain := ⟨c.hashes.take (height.toNat + 1)⟩

/-- The height of the last block. -/
def tipHeight? (c : HashChain) : Option UInt32 :=
  if c.hashes.isEmpty then none else some (UInt32.ofNat (c.hashes.length - 1))

/-- The last block. -/
def tip? (c : HashChain) : Option BlockRef :=
  c.hashes.getLast?.map fun hash => ⟨UInt32.ofNat (c.hashes.length - 1), hash⟩

theorem view_push (c : HashChain) (hash : Hash256) (height : UInt32) :
    (c.push hash).view height =
      if height.toNat = c.hashes.length then some hash else c.view height := by
  simp only [view, push, List.getElem?_append]
  split
  · rename_i hlt
    rw [if_neg (by omega)]
  · rename_i hge
    split
    · rename_i heq
      simp [heq]
    · rename_i hne
      rw [List.getElem?_eq_none (by simp; omega), List.getElem?_eq_none (by omega)]

theorem view_truncate (c : HashChain) (bound height : UInt32) :
    (c.truncate bound).view height = if height ≤ bound then c.view height else none := by
  simp only [view, truncate, List.getElem?_take, UInt32.le_iff_toNat_le]
  split <;> split <;> first | rfl | omega

end HashChain

/-- The view in which the blocks of a batch come before those of `base`. -/
def ChainView.withBlocks (base : ChainView) (blocks : List PlacedBlock) : ChainView := fun height =>
  match blocks.find? (·.height == height) with
  | some placed => some placed.block.hash
  | none => base height

theorem ChainView.withBlocks_of_find? {base : ChainView} {blocks : List PlacedBlock}
    {height : UInt32} {placed : PlacedBlock} (h : blocks.find? (·.height == height) = some placed) :
    base.withBlocks blocks height = some placed.block.hash := by
  simp [withBlocks, h]

end WalletLedger
