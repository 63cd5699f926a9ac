import WalletLedger.Ledger.Scope
import WalletLedger.Store.Pool
import WalletLedger.Sorting

/-!
# Recording deposits

The staged outputs of a batch are matched against the addresses of the wallets in scope. A first
deposit to an address extends its pool, and the new addresses may match further outputs, so matching
repeats until a round records nothing new or no pool grows.

* `Store.addresses_recordAll`: recording deposits leaves the pools alone.
* `Store.matchDeposits` ends because every further round has used up room in a pool.
-/

namespace WalletLedger

open Sorting

/-- A staged output that pays an address, as a ledger row in the making. -/
structure Deposit where
  key : LedgerKey
  side : DepositSide
  deriving DecidableEq

/-- The deposit of an output to an address. -/
def Deposit.ofOutput (address : AddressId) (o : StagedOutput) : Deposit where
  key := ⟨address, o.redeem, o.outpoint.txid.bytes, o.outpoint.vout⟩
  side :=
    { script := o.script
      value := o.value
      height := o.block.map (·.height)
      hash := o.block.map (·.hash.bytes)
      time := o.time
      coinbase := o.coinbase }

/-- The deposits among `ds` whose key is not in `applied`, the first of each key. -/
def unapplied : List LedgerKey → List Deposit → List Deposit
  | _, [] => []
  | applied, d :: ds =>
    if d.key ∈ applied then unapplied applied ds else d :: unapplied (d.key :: applied) ds

/-- Moves the payments of a source to another time; those already there give way. -/
def retime (payments : List PaymentRow) (source : PaymentSource) (time : UInt32) :
    List PaymentRow :=
  if source.time = time then payments
  else
    let target := { source with time := time }
    let moving := payments.filter (·.source == source)
    let kept := payments.filter fun p =>
      !(p.source == target && moving.any (·.index == p.index))
    kept.map fun p => if p.source = source then { p with source := target } else p

/-- What matching outputs has done. -/
structure DepositOutcome where
  /-- Ledger rows that were inserted or replaced. -/
  deposits : Nat
  /-- Rounds of matching. -/
  iterations : Nat
  /-- Addresses that pools were extended by. -/
  created : List Address
  deriving DecidableEq

namespace Store

/-- Whether the ledger has a row with this key and a confirmed deposit. -/
def isConfirmed (s : Store) (key : LedgerKey) : Bool :=
  s.ledger.any fun r => r.key == key && r.deposit.isConfirmed

/-- The outputs that pay an address in scope and are not recorded as confirmed, in the order of
their keys. -/
def deposits (s : Store) (scope : Scope) (outputs : List StagedOutput) : List Deposit :=
  sortBy (notAfter fun a b => a.key.order b.key) <|
    (outputs.flatMap fun o =>
      (s.addresses.filter fun a =>
        a.scripts.toKeyHash == o.script && s.inScope scope a.id.group.wallet).map fun a =>
          Deposit.ofOutput a.id o).filter fun d => !s.isConfirmed d.key

/-- Inserts a deposit, or replaces an unconfirmed one and moves its payments along. The spend side
of a row stays. Tells whether a row was written. -/
def record (s : Store) (d : Deposit) : Bool × Store :=
  match s.ledger.find? (·.key == d.key) with
  | none => (true, { s with ledger := s.ledger ++ [⟨d.key, d.side, .unspent⟩] })
  | some row =>
    if row.deposit.isUnconfirmed then
      (true,
        { s with
          ledger := s.ledger.map fun r => if r.key = d.key then { r with deposit := d.side } else r
          payments := retime s.payments row.source d.side.time })
    else (false, s)

/-- Records deposits, one after another, and counts the rows written. -/
def recordAll : List Deposit → Store → Nat × Store
  | [], s => (0, s)
  | d :: ds, s =>
    let (written, s) := s.record d
    let (more, s) := recordAll ds s
    ((if written then 1 else 0) + more, s)

/-- The pools that have addresses, in their order. -/
def pools (s : Store) : List AddressGroup :=
  sortBy (notAfter AddressGroup.order) (s.addresses.map (·.id.group)).eraseDups

/-- The pools in which a deposit is the first one to its address. -/
def touchedPools (s : Store) (pools : List AddressGroup) (ds : List Deposit) : List AddressGroup :=
  pools.filter fun g => ds.any fun d => d.key.address.group == g && !s.isUsed d.key.address

theorem addresses_record (s : Store) (d : Deposit) : (s.record d).2.addresses = s.addresses := by
  unfold record
  split
  · rfl
  · split <;> rfl

theorem addresses_recordAll (ds : List Deposit) (s : Store) :
    (recordAll ds s).2.addresses = s.addresses := by
  induction ds generalizing s with
  | nil => rfl
  | cons d ds ih =>
    simp only [recordAll]
    rw [ih, addresses_record]

theorem totalRoom_congr {s t : Store} (h : s.addresses = t.addresses) (pools : List AddressGroup) :
    s.totalRoom pools = t.totalRoom pools := by
  have hroom : s.room = t.room := by
    funext g
    simp only [room, taken, pool, h]
  simp only [totalRoom, hroom]

/-- Matches outputs against addresses until a round finds no deposit outside `applied`, or extends
no pool. -/
def matchDeposits (scope : Scope) (buffer : UInt64) (outputs : List StagedOutput)
    (pools : List AddressGroup) (applied : List LedgerKey) (s : Store) :
    Result (DepositOutcome × Store) :=
  let new := unapplied applied (s.deposits scope outputs)
  if new = [] then .ok (⟨0, 1, []⟩, s)
  else
    let recorded := recordAll new s
    match _h : extendPools buffer (s.touchedPools pools new) recorded.2 with
    | .error e => .error e
    | .ok ([], extended) => .ok (⟨recorded.1, 1, []⟩, extended)
    | .ok (a :: created, extended) =>
      match matchDeposits scope buffer outputs pools (applied ++ new.map (·.key)) extended with
      | .error e => .error e
      | .ok (rest, last) =>
        .ok (⟨recorded.1 + rest.deposits, rest.iterations + 1, a :: created ++ rest.created⟩, last)
termination_by s.totalRoom pools
decreasing_by
  rw [← totalRoom_congr (addresses_recordAll new s) pools]
  exact totalRoom_extendPools_lt (fun g hg => (List.mem_filter.1 hg).1) _h (List.cons_ne_nil _ _)

end Store

end WalletLedger
