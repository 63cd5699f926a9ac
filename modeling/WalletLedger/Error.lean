import WalletLedger.Bitcoin.Hash256
import WalletLedger.Keys.ExtendedKey

/-!
# Errors

Every way an operation can be refused, as a cause; `Error.message` words it.
-/

namespace WalletLedger

/-- What the store refuses to hold or to compute. -/
inductive StoreError where
  /-- Two wallets would have one name. -/
  | walletName
  /-- A wallet would have two accounts of one index. -/
  | account
  /-- A pool would have two addresses of one index. -/
  | address
  /-- An address would have two ledger rows for one redeem script and output. -/
  | ledgerRow
  /-- A column that is always present would be absent. -/
  | missing (column : String)
  /-- A sum leaves the signed 64-bit range. -/
  | overflow
  deriving DecidableEq

/-- Which stored bytes are no hash, and how many they are. -/
inductive InvalidHash where
  | blockHash (length : Nat)
  | txid (length : Nat)
  | locator (length : Nat)
  deriving DecidableEq

/-- Why an operation is refused. -/
inductive Error where
  | store (cause : StoreError)
  | derivation (cause : DerivationError)
  /-- An extended key belongs to another kind of network than the store. -/
  | networkMismatch (expected found : NetworkKind)
  | walletNotFound (name : String)
  | accountNotFound (wallet : Int) (account : UInt32)
  /-- A chain view has no block at a height. -/
  | blockNotFound (height : UInt32)
  | invalidHash (cause : InvalidHash)
  /-- A block of a batch does not extend the one before it. -/
  | nonContiguousBatch (height : UInt32) (hash : Hash256)
  /-- The history of a wallet diverges from the chain. -/
  | resyncRequired (wallet : String) (height : UInt32)
  deriving DecidableEq

/-- The result code of a refusal of the store. -/
def StoreError.code : StoreError → Nat
  | .walletName => 2067
  | .account | .address | .ledgerRow => 1555
  | .missing _ => 1299
  | .overflow => 1

/-- The wording of a refusal of the store. -/
def StoreError.message : StoreError → String
  | .walletName => "UNIQUE constraint failed: wallets.name"
  | .account => "UNIQUE constraint failed: accounts.wallet_id, accounts.account_index"
  | .address =>
    "UNIQUE constraint failed: addresses.wallet_id, addresses.account_index, " ++
      "addresses.address_type, addresses.address_index"
  | .ledgerRow =>
    "UNIQUE constraint failed: ledger.wallet_id, ledger.account_index, ledger.address_type, " ++
      "ledger.address_index, ledger.redeem_script, ledger.output_txid, ledger.output_index"
  | .missing column => "NOT NULL constraint failed: " ++ column
  | .overflow => "integer overflow"

/-- The wording of a failed reading. -/
def InvalidHash.message : InvalidHash → String
  | .blockHash length => "block hash of " ++ length.repr ++ " bytes"
  | .txid length => "txid of " ++ length.repr ++ " bytes"
  | .locator length => "block locator of " ++ length.repr ++ " bytes"

/-- The wording of an error. -/
def Error.message : Error → String
  | .store cause =>
    "Database error: error returned from database: (code: " ++ cause.code.repr ++ ") " ++
      cause.message
  | .derivation cause => "Key derivation error: " ++ cause.message
  | .networkMismatch expected found =>
    "Extended public key is for " ++ found.name ++ ", wallet database is for " ++ expected.name
  | .walletNotFound name => "Wallet not found: " ++ name
  | .accountNotFound wallet account =>
    "Account " ++ account.toNat.repr ++ " not found in wallet " ++ wallet.repr
  | .blockNotFound height => "Block not found: " ++ height.toNat.repr
  | .invalidHash cause => "Invalid hash in database: " ++ cause.message
  | .nonContiguousBatch height hash =>
    "Block " ++ hash.display ++ " at height " ++ height.toNat.repr ++
      " does not extend the previous block of the batch"
  | .resyncRequired wallet height =>
    "Wallet " ++ wallet ++ " requires a resync: history diverges below height " ++ height.toNat.repr

/-- What an operation answers. -/
abbrev Result (α : Type) := Except Error α

/-- A derivation inside an operation. -/
def Result.ofDerivation {α : Type} : Except DerivationError α → Result α :=
  Except.mapError Error.derivation

/-- Reads a stored transaction name. -/
def readTxid (bs : Bytes) : Result Hash256 :=
  match Hash256.ofBytes? bs with
  | some h => .ok h
  | none => .error (.invalidHash (.txid bs.length))

/-- Reads a stored block name. -/
def readBlockHash (bs : Bytes) : Result Hash256 :=
  match Hash256.ofBytes? bs with
  | some h => .ok h
  | none => .error (.invalidHash (.blockHash bs.length))

/-- A stored block name is read if it is the bytes of a hash. -/
theorem readBlockHash_eq_ok_iff {bs : Bytes} {hash : Hash256} :
    readBlockHash bs = .ok hash ↔ bs = hash.bytes := by
  unfold readBlockHash
  cases hfound : Hash256.ofBytes? bs with
  | none =>
    refine iff_of_false nofun ?_
    rintro rfl
    rw [Hash256.ofBytes?_bytes] at hfound
    cases hfound
  | some found =>
    rw [Hash256.ofBytes?_eq_some_iff] at hfound
    rw [Except.ok.injEq, hfound, Hash256.ext_iff]

end WalletLedger
