import WalletLedger.Bitcoin.Transaction

/-!
# Blocks

A block is named by the double hash of its eighty header bytes.
-/

namespace WalletLedger

/-- A block: its header fields and its transactions. -/
structure Block where
  version : Int32
  /-- The name of the block before it. -/
  prev : Hash256
  merkleRoot : Hash256
  time : UInt32
  bits : UInt32
  nonce : UInt32
  transactions : List Transaction

namespace Block

/-- The eighty bytes of the header. -/
def header (b : Block) : Bytes :=
  Bytes.ofNatLE 4 b.version.toUInt32.toNat ++ b.prev.bytes ++ b.merkleRoot.bytes
    ++ Bytes.ofNatLE 4 b.time.toNat ++ Bytes.ofNatLE 4 b.bits.toNat ++ Bytes.ofNatLE 4 b.nonce.toNat

/-- The name of a block. -/
def hash (b : Block) : Hash256 := Hash256.digest b.header

theorem length_header (b : Block) : b.header.length = 80 := by
  simp [header, b.prev.length_bytes, b.merkleRoot.length_bytes]

end Block

/-- The position of a block in a chain. -/
structure BlockRef where
  height : UInt32
  hash : Hash256
  deriving DecidableEq

/-- A block together with its height. -/
structure PlacedBlock where
  height : UInt32
  block : Block

/-- The position of a placed block. -/
def PlacedBlock.ref (b : PlacedBlock) : BlockRef := ⟨b.height, b.block.hash⟩

end WalletLedger
