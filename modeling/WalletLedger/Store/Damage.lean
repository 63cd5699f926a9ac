import WalletLedger.Store.Row
import WalletLedger.Error

/-!
# Damaged stores

Overwrites single columns the way a faulty disk or another program would, behind every invariant.
Each function counts the rows it overwrites. A column that is always present refuses to be cleared.
-/

namespace WalletLedger

/-- The bytes of a column that is always present. -/
def presentColumn (name : String) (bytes : Option Bytes) : Result Bytes :=
  match bytes with
  | some bytes => .ok bytes
  | none => .error (.store (.missing name))

namespace Store

/-- Overwrites the rows of the named wallet. -/
def damageWallet (s : Store) (name column : String) (bytes : Option Bytes)
    (write : WalletRow → Bytes → WalletRow) : Result (Nat × Store) :=
  let hits := s.wallets.countP (·.name == name)
  if hits = 0 then .ok (0, s)
  else do
    let bytes ← presentColumn column bytes
    return (hits,
      { s with wallets := s.wallets.map fun r => if r.name = name then write r bytes else r })

/-- Overwrites the hash a wallet is synced to. -/
def damageSyncedHash (s : Store) (name : String) (bytes : Option Bytes) : Result (Nat × Store) :=
  s.damageWallet name "wallets.last_synced_hash" bytes fun r bytes => { r with hash := bytes }

/-- Overwrites the locator of a wallet. -/
def damageLocator (s : Store) (name : String) (bytes : Option Bytes) : Result (Nat × Store) :=
  s.damageWallet name "wallets.block_locator" bytes fun r bytes => { r with locator := bytes }

/-- Whether a row is of an output. -/
def isOfOutput (o : OutPoint) (r : LedgerRow) : Bool :=
  r.key.txid == o.txid.bytes && r.key.vout == o.vout

/-- Overwrites the rows of an output, in every wallet. -/
def damageRows (s : Store) (o : OutPoint) (write : LedgerRow → LedgerRow) : Nat × Store :=
  (s.ledger.countP (isOfOutput o),
    { s with ledger := s.ledger.map fun r => if isOfOutput o r then write r else r })

/-- Overwrites the transaction of an output. Rows stay distinct. -/
def damageOutputTxid (s : Store) (o : OutPoint) (bytes : Option Bytes) : Result (Nat × Store) :=
  let hits := s.ledger.countP (isOfOutput o)
  if hits = 0 then .ok (0, s)
  else do
    let bytes ← presentColumn "ledger.output_txid" bytes
    let (_, damaged) :=
      s.damageRows o fun r => { r with key := { r.key with txid := bytes } }
    let keys := damaged.ledger.map (·.key)
    if keys.eraseDups.length = keys.length then return (hits, damaged)
    else throw (.store .ledgerRow)

/-- Overwrites the block hash of the deposit sides of an output. -/
def damageOutputHash (s : Store) (o : OutPoint) (bytes : Option Bytes) : Nat × Store :=
  s.damageRows o fun r => { r with deposit := { r.deposit with hash := bytes } }

/-- Overwrites the spending transaction of an output. -/
def damageSpendTxid (s : Store) (o : OutPoint) (bytes : Option Bytes) : Nat × Store :=
  s.damageRows o fun r => { r with spend := { r.spend with txid := bytes } }

/-- Overwrites the block hash of the spend sides of an output. -/
def damageSpendHash (s : Store) (o : OutPoint) (bytes : Option Bytes) : Nat × Store :=
  s.damageRows o fun r => { r with spend := { r.spend with hash := bytes } }

/-- Deletes an account; its addresses stay. -/
def dropAccount (s : Store) (wallet : Int) (index : UInt32) : Nat × Store :=
  let hit (a : Account) : Bool := a.wallet == wallet && a.index == index
  (s.accounts.countP hit, { s with accounts := s.accounts.filter fun a => !hit a })

end Store

end WalletLedger
