import WalletLedger.Batch
import WalletLedger.Keys.ExtendedKey

/-!
# Stored rows

What the store holds, column by column. Hashes are stored as bytes of any length and heights apart
from hashes, since a store can be damaged; reading a row back into the types of the domain is where
damage is found.
-/

namespace WalletLedger

/-- A wallet and the block it is synced to. -/
structure WalletRow where
  id : Int
  name : String
  /-- Absent before the first block. -/
  height : Option UInt32
  /-- The name of the block, all zeros before the first one. -/
  hash : Bytes
  /-- The encoded block locator. -/
  locator : Bytes
  fromExtendedKey : Bool
  seed : String
  chainCode : String
  created : UInt32
  deriving DecidableEq

/-- An account of a wallet; all its addresses derive from its extended key. -/
structure Account where
  wallet : Int
  index : UInt32
  name : String
  extendedKey : String
  created : UInt32
  deriving DecidableEq

/-- The pool of addresses of one account and type. -/
structure AddressGroup where
  wallet : Int
  account : UInt32
  kind : UInt32
  deriving DecidableEq

/-- The place of an address in its pool. -/
structure AddressId where
  group : AddressGroup
  index : UInt32
  deriving DecidableEq

theorem AddressId.eq_of_index {a b : AddressId} (hgroup : a.group = b.group)
    (hindex : a.index.toNat = b.index.toNat) : a = b := by
  cases a
  cases b
  cases hgroup
  cases UInt32.toNat_inj.1 hindex
  rfl

/-- A derived address. -/
structure Address where
  id : AddressId
  scripts : DerivedScripts
  deriving DecidableEq

/-- What tells ledger rows apart: the address, the script as paid, and the output. -/
structure LedgerKey where
  address : AddressId
  redeem : Script
  txid : Bytes
  vout : UInt32
  deriving DecidableEq

/-- What a ledger row says of the output received. -/
structure DepositSide where
  script : Script
  value : UInt64
  height : Option UInt32
  hash : Option Bytes
  time : UInt32
  coinbase : Bool
  deriving DecidableEq

/-- What a ledger row says of the transaction that spends the output. -/
structure SpendSide where
  height : Option UInt32
  hash : Option Bytes
  coinbase : Option Bool
  time : Option UInt32
  txid : Option Bytes
  totalOut : Option UInt64
  deriving DecidableEq

/-- The spend side of an unspent output. -/
def SpendSide.unspent : SpendSide := ⟨none, none, none, none, none, none⟩

/-- An output received by an address. -/
structure LedgerRow where
  key : LedgerKey
  deposit : DepositSide
  spend : SpendSide
  deriving DecidableEq

/-- The deposit that payments stem from, by time and output. -/
structure PaymentSource where
  time : UInt32
  txid : Bytes
  vout : UInt32
  deriving DecidableEq

/-- One output of a transaction that spends a deposit. -/
structure PaymentRow where
  source : PaymentSource
  /-- The position of the output in the spending transaction. -/
  index : UInt32
  script : Script
  value : UInt64
  deriving DecidableEq

/-- Everything stored for one network, rows in the order they were inserted. -/
structure Store where
  wallets : List WalletRow
  accounts : List Account
  addresses : List Address
  ledger : List LedgerRow
  payments : List PaymentRow
  deriving DecidableEq

/-- The store before the first wallet. -/
def Store.empty : Store := ⟨[], [], [], [], []⟩

/-- The payments of a row's spending transaction. -/
def LedgerRow.source (r : LedgerRow) : PaymentSource := ⟨r.deposit.time, r.key.txid, r.key.vout⟩

/-- Both block columns of the deposit are present. -/
def DepositSide.isConfirmed (d : DepositSide) : Bool := d.height.isSome && d.hash.isSome

/-- Both block columns of the deposit are absent. -/
def DepositSide.isUnconfirmed (d : DepositSide) : Bool := d.height.isNone && d.hash.isNone

/-- Both block columns of the spend are present. -/
def SpendSide.isConfirmed (s : SpendSide) : Bool := s.height.isSome && s.hash.isSome

/-- Both block columns of the spend are absent. -/
def SpendSide.isUnconfirmed (s : SpendSide) : Bool := s.height.isNone && s.hash.isNone

/-! ## Orders -/

/-- By wallet, account and type. -/
def AddressGroup.order : AddressGroup → AddressGroup → Ordering :=
  compareLex (compareOn (·.wallet)) (compareLex (compareOn (·.account)) (compareOn (·.kind)))

/-- By pool and index. -/
def AddressId.order : AddressId → AddressId → Ordering :=
  compareLex (fun a b => a.group.order b.group) (compareOn (·.index))

/-- By output, transaction first. -/
def LedgerKey.outputOrder : LedgerKey → LedgerKey → Ordering :=
  compareLex (compareOn (·.txid)) (compareOn (·.vout))

/-- By address, output and redeem script. -/
def LedgerKey.order : LedgerKey → LedgerKey → Ordering :=
  compareLex (fun a b => a.address.order b.address) (compareLex outputOrder (compareOn (·.redeem)))

/-- Whether `a` comes no later than `b` in an order. -/
def notAfter {α : Type} (order : α → α → Ordering) (a b : α) : Bool := (order a b).isLE

theorem notAfter_total {α : Type} {order : α → α → Ordering} [Std.OrientedCmp order] (a b : α) :
    notAfter order a b ∨ notAfter order b a := by
  unfold notAfter
  have hswap : order a b = (order b a).swap := Std.OrientedCmp.eq_swap
  rw [hswap]
  cases order b a <;> decide

theorem notAfter_trans {α : Type} {order : α → α → Ordering} [Std.TransCmp order] (a b c : α) :
    notAfter order a b → notAfter order b c → notAfter order a c := Std.TransCmp.isLE_trans

theorem transCmp_comap {α β : Type} {c : β → β → Ordering} [Std.TransCmp c] (f : α → β) :
    Std.TransCmp fun x y => c (f x) (f y) where
  eq_swap := Std.OrientedCmp.eq_swap
  isLE_trans := Std.TransCmp.isLE_trans

instance : Std.TransCmp AddressGroup.order := by
  unfold AddressGroup.order
  infer_instance

instance : Std.TransCmp AddressId.order := by
  have := transCmp_comap (c := AddressGroup.order) AddressId.group
  unfold AddressId.order
  infer_instance

instance : Std.TransCmp LedgerKey.order := by
  have := transCmp_comap (c := AddressId.order) LedgerKey.address
  unfold LedgerKey.order LedgerKey.outputOrder
  infer_instance

end WalletLedger
