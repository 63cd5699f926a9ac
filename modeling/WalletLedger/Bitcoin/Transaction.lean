import WalletLedger.Bitcoin.Hash256
import WalletLedger.Script

/-!
# Transactions

A transaction spends earlier outputs and creates new ones. Its name is the double hash of its
serialization without witnesses, which are therefore not kept.
-/

namespace WalletLedger

/-- An output of a transaction, by the transaction's name and the output's position. -/
structure OutPoint where
  txid : Hash256
  vout : UInt32
  deriving DecidableEq

/-- The outpoint that no transaction creates; the input of a coinbase names it. -/
def OutPoint.null : OutPoint := ⟨Hash256.zero, 0xffffffff⟩

theorem OutPoint.eq_of_bytes {o o' : OutPoint} (htxid : o.txid.bytes = o'.txid.bytes)
    (hvout : o.vout = o'.vout) : o = o' := by
  have htx : o.txid = o'.txid := Hash256.ext htxid
  cases o
  cases o'
  rw [OutPoint.mk.injEq]
  exact ⟨htx, hvout⟩

/-- An input of a transaction. -/
structure TxIn where
  /-- The output that is spent. -/
  prevOut : OutPoint
  scriptSig : Script
  sequence : UInt32

/-- An output of a transaction. -/
structure TxOut where
  /-- Satoshis. -/
  value : UInt64
  script : Script

/-- A transaction, without the witnesses of its inputs. -/
structure Transaction where
  version : Int32
  inputs : List TxIn
  outputs : List TxOut
  lockTime : UInt32

/-- A count in its shortest form: one byte, or a marker and two, four or eight bytes. -/
def compactSize (count : Nat) : Bytes :=
  if count < 0xfd then [UInt8.ofNat count]
  else if count < 0x10000 then 0xfd :: Bytes.ofNatLE 2 count
  else if count < 0x100000000 then 0xfe :: Bytes.ofNatLE 4 count
  else 0xff :: Bytes.ofNatLE 8 count

/-- A script after its length. -/
def Script.serialize (s : Script) : Bytes := compactSize s.length ++ s

/-- The transaction and the position, 36 bytes. -/
def OutPoint.serialize (o : OutPoint) : Bytes := o.txid.bytes ++ Bytes.ofNatLE 4 o.vout.toNat

/-- The outpoint, the script and the sequence number. -/
def TxIn.serialize (i : TxIn) : Bytes :=
  i.prevOut.serialize ++ i.scriptSig.serialize ++ Bytes.ofNatLE 4 i.sequence.toNat

/-- The value and the script. -/
def TxOut.serialize (o : TxOut) : Bytes := Bytes.ofNatLE 8 o.value.toNat ++ o.script.serialize

namespace Transaction

/-- The bytes that the name of a transaction is taken from. -/
def serialize (tx : Transaction) : Bytes :=
  Bytes.ofNatLE 4 tx.version.toUInt32.toNat
    ++ compactSize tx.inputs.length ++ tx.inputs.flatMap TxIn.serialize
    ++ compactSize tx.outputs.length ++ tx.outputs.flatMap TxOut.serialize
    ++ Bytes.ofNatLE 4 tx.lockTime.toNat

/-- The name of a transaction. -/
def txid (tx : Transaction) : Hash256 := Hash256.digest tx.serialize

/-- A coinbase has a single input, and that names no output. -/
def isCoinbase (tx : Transaction) : Bool := tx.inputs.map (·.prevOut) == [OutPoint.null]

/-- The sum of the output values. -/
def totalOut (tx : Transaction) : UInt64 := tx.outputs.foldl (fun sum out => sum + out.value) 0

end Transaction

end WalletLedger
