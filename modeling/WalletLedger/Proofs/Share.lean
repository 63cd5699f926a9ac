import WalletLedger.Proofs.Rollback
import WalletLedger.Proofs.TopUp

/-!
# The share of a wallet

A batch treats every wallet by itself: what it does to the rows of one wallet can be read off these
rows alone. Only the rounds of matching are counted together, so that the rounds of a wallet may be
over before those of the others.

* `Store.share`: the rows of one wallet, with an equation for each step of a batch.
* `Store.rounds_share`: the rounds of a store are rounds of each share, cut off where nothing is new.
* `Store.rounds_of_share`: the rounds of a share are those of the store if no other wallet takes part.
-/

namespace WalletLedger

/-- Whether a key belongs to a wallet. -/
def LedgerKey.isOf (wallet : Int) (k : LedgerKey) : Bool := k.address.group.wallet == wallet

/-- Whether an address belongs to a wallet. -/
def Address.isOf (wallet : Int) (a : Address) : Bool := a.id.group.wallet == wallet

/-- Picking elements commutes with dropping duplicates. -/
theorem filter_eraseDups {α : Type} [BEq α] [LawfulBEq α] (p : α → Bool) :
    (l : List α) → l.eraseDups.filter p = (l.filter p).eraseDups
  | [] => rfl
  | a :: as => by
    -- duplicates of the first element are dropped before the rest is looked at
    have hrest := filter_eraseDups p (as.filter fun b => !b == a)
    rw [List.eraseDups_cons, List.filter_cons, List.filter_cons, hrest,
      List.filter_comm p (fun b => !b == a) as]
    cases hp : p a with
    | true => rw [if_pos rfl, if_pos rfl, List.eraseDups_cons]
    | false =>
      have hall : (as.filter p).filter (fun b => !b == a) = as.filter p := by
        refine List.filter_eq_self.2 fun b hb => ?_
        rw [Bool.not_eq_true', beq_eq_false_iff_ne]
        rintro rfl
        rw [(List.mem_filter.1 hb).2] at hp
        cases hp
      rw [if_neg Bool.false_ne_true, if_neg Bool.false_ne_true, hall]
termination_by l => l.length
decreasing_by exact Nat.lt_succ_of_le (List.length_filter_le _ as)

/-- Two tests one of which implies the other, one after the other. -/
theorem filter_filter_of_imp {α : Type} {p q : α → Bool} {l : List α} (h : ∀ a, p a = true → q a = true) :
    (l.filter q).filter p = l.filter p := by
  rw [List.filter_filter]
  refine List.filter_congr fun a _ => ?_
  cases hp : p a with
  | true => rw [h a hp, Bool.and_true]
  | false => rw [Bool.false_and]

/-- A search among picked elements, if all that can be found are picked. -/
theorem find?_filter_of_imp {α : Type} {p q : α → Bool} {l : List α} (h : ∀ a, p a = true → q a = true) :
    (l.filter q).find? p = l.find? p := by
  rw [← List.head?_filter, ← List.head?_filter, filter_filter_of_imp h]

/-- A question to picked elements, if all that can say yes are picked. -/
theorem any_filter_of_imp {α : Type} {p q : α → Bool} {l : List α} (h : ∀ a, p a = true → q a = true) :
    (l.filter q).any p = l.any p := by
  rw [List.any_filter]
  refine List.any_congr rfl fun a => ?_
  cases hp : p a with
  | true => rw [h a hp]; rfl
  | false => rw [Bool.and_false]

/-- Lists with the same parts hold the same elements. -/
theorem perm_of_filter_eq {α β : Type} [DecidableEq α] [DecidableEq β] {f : α → β} {l l' : List α}
    (h : ∀ b, l.filter (f · == b) = l'.filter (f · == b)) : l.Perm l' := by
  rw [List.perm_iff_count]
  intro a
  -- an element is counted in its own part
  have hpart : ∀ l : List α, (l.filter (f · == f a)).count a = l.count a := fun l =>
    List.count_filter (beq_self_eq_true (f a))
  rw [← hpart l, h, hpart]

namespace Store

variable {s s' t m : Store} {w : Int} {g : AddressGroup} {scope scope' : Scope}

/-- What a store holds for one wallet. Payments belong to no wallet and are left out. -/
def share (s : Store) (wallet : Int) : Store where
  wallets := s.wallets.filter (·.id == wallet)
  accounts := s.accounts.filter (·.wallet == wallet)
  addresses := s.addresses.filter (·.isOf wallet)
  ledger := s.ledger.filter (·.isOf wallet)
  payments := []

theorem share_congr (hwallets : s.wallets.filter (·.id == w) = t.wallets.filter (·.id == w))
    (haccounts : s.accounts.filter (·.wallet == w) = t.accounts.filter (·.wallet == w))
    (haddresses : s.addresses.filter (·.isOf w) = t.addresses.filter (·.isOf w))
    (hledger : s.ledger.filter (·.isOf w) = t.ledger.filter (·.isOf w)) : s.share w = t.share w := by
  unfold share
  rw [hwallets, haccounts, haddresses, hledger]

/-- A wallet takes no part if no row of it does. -/
theorem inScope_eq_false_iff : s.inScope scope w = false ↔
    ∀ row ∈ s.wallets, row.id = w → scope.covers row = false := by
  unfold inScope
  rw [List.any_eq_false]
  refine forall₂_congr fun row _ => ?_
  rw [Bool.and_eq_true, beq_iff_eq, not_and, Bool.not_eq_true]

/-! ## Reading a share -/

theorem pool_share (hg : g.wallet = w) : (s.share w).pool g = s.pool g := by
  refine filter_filter_of_imp fun a ha => ?_
  rw [Address.isOf, beq_iff_eq.1 ha, beq_iff_eq]
  exact hg

theorem isUsed_share {id : AddressId} (hid : id.group.wallet = w) :
    (s.share w).isUsed id = s.isUsed id := by
  refine any_filter_of_imp fun r hr => ?_
  rw [LedgerRow.isOf, beq_iff_eq.1 hr, beq_iff_eq]
  exact hid

theorem isConfirmed_share {k : LedgerKey} (hk : k.isOf w = true) :
    (s.share w).isConfirmed k = s.isConfirmed k := by
  refine any_filter_of_imp fun r hr => ?_
  rw [Bool.and_eq_true, beq_iff_eq] at hr
  rw [LedgerRow.isOf, hr.1]
  exact hk

theorem find?_share {k : LedgerKey} (hk : k.isOf w = true) :
    (s.share w).ledger.find? (·.key == k) = s.ledger.find? (·.key == k) := by
  refine find?_filter_of_imp fun r hr => ?_
  rw [LedgerRow.isOf, beq_iff_eq.1 hr]
  exact hk

theorem account?_share (hg : g.wallet = w) :
    (s.share w).account? g.wallet g.account = s.account? g.wallet g.account := by
  refine find?_filter_of_imp fun a ha => ?_
  rw [Bool.and_eq_true, beq_iff_eq] at ha
  rw [ha.1, beq_iff_eq]
  exact hg

theorem inScope_share : (s.share w).inScope scope w = s.inScope scope w := by
  refine any_filter_of_imp fun row hrow => ?_
  rw [Bool.and_eq_true] at hrow
  exact hrow.1

theorem nextUnused_share (hg : g.wallet = w) : (s.share w).nextUnused g = s.nextUnused g := by
  unfold nextUnused
  rw [pool_share hg]
  congr 1
  refine List.filter_congr fun a ha => ?_
  have hgroup : a.id.group = g := beq_iff_eq.1 (List.mem_filter.1 ha).2
  rw [isUsed_share (hgroup ▸ hg)]

/-- The pools of a wallet are those of its share. -/
theorem pools_share : (s.share w).pools = s.pools.filter (·.wallet == w) := by
  unfold pools
  rw [Sorting.filter_sortBy, filter_eraseDups, List.filter_map]
  rfl

/-! ## Deposits -/

theorem retime_nil (source : PaymentSource) (time : UInt32) : retime [] source time = [] := by
  unfold retime
  split <;> rfl

/-- A deposit of a wallet is recorded in its share. -/
theorem record_share {d : Deposit} (hd : d.key.isOf w = true) :
    (s.share w).record d = ((s.record d).1, (s.record d).2.share w) := by
  unfold record
  rw [find?_share hd]
  cases hfind : s.ledger.find? (·.key == d.key) with
  | none =>
    have hrow : LedgerRow.isOf w ⟨d.key, d.side, .unspent⟩ = true := hd
    simp only [share, List.filter_append, List.filter_cons, hrow, if_true, List.filter_nil]
  | some row =>
    dsimp only
    cases row.deposit.isUnconfirmed with
    | false => rfl
    | true =>
      have hledger : (s.ledger.map fun r => if r.key = d.key then { r with deposit := d.side } else r).filter
          (·.isOf w) = (s.ledger.filter (·.isOf w)).map fun r =>
            if r.key = d.key then { r with deposit := d.side } else r := by
        refine filter_map_comm fun r _ => ?_
        split <;> rfl
      simp only [if_true, share, hledger, retime_nil]

/-- A deposit of another wallet leaves the share. -/
theorem share_record_of_ne {d : Deposit} (hd : d.key.isOf w = false) :
    (s.record d).2.share w = s.share w := by
  rcases s.record_cases d with ⟨-, heq⟩ | ⟨row, -, -, -, heq⟩ | ⟨row, -, -, -, heq⟩
  · have hrow : LedgerRow.isOf w ⟨d.key, d.side, .unspent⟩ = false := hd
    simp only [heq, share, List.filter_append, List.filter_cons, hrow, Bool.false_eq_true, if_false,
      List.filter_nil, List.append_nil]
  · have hledger : (s.ledger.map fun r => if r.key = d.key then { r with deposit := d.side } else r).filter
        (·.isOf w) = s.ledger.filter (·.isOf w) := by
      rw [filter_map_comm fun r _ => by split <;> rfl]
      refine map_eq_self fun r hr => if_neg ?_
      intro hkey
      have hown : r.isOf w = true := (List.mem_filter.1 hr).2
      rw [LedgerRow.isOf, hkey] at hown
      rw [LedgerKey.isOf, hown] at hd
      cases hd
    simp only [heq, share, hledger]
  · rw [heq]

/-- Deposits are recorded in the share of a wallet if they belong to it. -/
theorem share_recordAll (ds : List Deposit) (s : Store) (w : Int) :
    (recordAll ds s).2.share w = (recordAll (ds.filter (·.key.isOf w)) (s.share w)).2 := by
  induction ds generalizing s with
  | nil => rfl
  | cons d ds ih =>
    simp only [recordAll]
    rw [ih, List.filter_cons]
    cases hd : d.key.isOf w with
    | true => rw [if_pos rfl, recordAll, record_share hd]
    | false => rw [if_neg Bool.false_ne_true, share_record_of_ne hd]

/-- Of the deposits of one wallet as many are written as in its share. -/
theorem fst_recordAll_share {ds : List Deposit} (hds : ∀ d ∈ ds, d.key.isOf w = true) :
    (recordAll ds (s.share w)).1 = (recordAll ds s).1 := by
  induction ds generalizing s with
  | nil => rfl
  | cons d ds ih =>
    simp only [recordAll]
    rw [record_share (hds d List.mem_cons_self), ih fun e he => hds e (List.mem_cons_of_mem _ he)]

/-- Deposits of several keys are all written if none finds a deposit that has to stay. -/
theorem fst_recordAll_eq_length {ds : List Deposit} (hnodup : (ds.map (·.key)).Nodup)
    (hfree : ∀ d ∈ ds, ∀ r ∈ s.ledger, r.key = d.key → r.deposit.isUnconfirmed = true) :
    (recordAll ds s).1 = ds.length := by
  induction ds generalizing s with
  | nil => rfl
  | cons d ds ih =>
    rw [List.map_cons, List.nodup_cons] at hnodup
    have hwritten : (s.record d).1 = true := by
      rcases s.record_cases d with ⟨-, heq⟩ | ⟨row, -, -, -, heq⟩ | ⟨row, hrow, hkey, hstays, heq⟩
      · rw [heq]
      · rw [heq]
      · rw [hfree d List.mem_cons_self row hrow hkey] at hstays
        cases hstays
    have hrest : (recordAll ds (s.record d).2).1 = ds.length := by
      refine ih hnodup.2 fun e he r hr hkey => ?_
      rcases mem_ledger_record hr with hr | ⟨hkey', -, -⟩
      · exact hfree e (List.mem_cons_of_mem _ he) r hr hkey
      · -- the row just written has the key of another deposit
        rw [hkey'] at hkey
        exact absurd (List.mem_map.2 ⟨e, he, hkey.symm⟩) hnodup.1
    simp only [recordAll]
    rw [hwritten, hrest, if_pos rfl, List.length_cons, Nat.add_comm]

/-- Dropping what is applied commutes with a test on keys. -/
theorem filter_unapplied (p : LedgerKey → Bool) (applied : List LedgerKey) (ds : List Deposit) :
    (unapplied applied ds).filter (p ·.key) =
      unapplied (applied.filter p) (ds.filter (p ·.key)) := by
  induction ds generalizing applied with
  | nil => rfl
  | cons d ds ih =>
    rw [unapplied, List.filter_cons]
    by_cases happ : d.key ∈ applied
    · rw [if_pos happ, ih]
      cases hp : p d.key with
      | true => rw [if_pos rfl, unapplied, if_pos (List.mem_filter.2 ⟨happ, hp⟩)]
      | false => rw [if_neg Bool.false_ne_true]
    · rw [if_neg happ, List.filter_cons, ih, List.filter_cons]
      cases hp : p d.key with
      | true =>
        rw [if_pos rfl, if_pos rfl, if_pos rfl, unapplied,
          if_neg fun h => happ (List.mem_filter.1 h).1]
      | false =>
        rw [if_neg Bool.false_ne_true, if_neg Bool.false_ne_true, if_neg Bool.false_ne_true]

/-- The deposits of a wallet are those of its share. -/
theorem filter_deposits (hscope : (s.share w).inScope scope' w = s.inScope scope w)
    (outputs : List StagedOutput) :
    (s.deposits scope outputs).filter (·.key.isOf w) = (s.share w).deposits scope' outputs := by
  have horder : Std.TransCmp fun a b : Deposit => a.key.order b.key := transCmp_comap Deposit.key
  unfold deposits
  rw [Sorting.filter_sortBy, List.filter_filter]
  congr 1
  rw [List.filter_flatMap, List.filter_flatMap]
  refine congrArg (fun f => outputs.flatMap f) (funext fun o => ?_)
  rw [List.filter_map, List.filter_map, List.filter_filter, share, List.filter_filter,
    List.filter_filter]
  congr 1
  refine List.filter_congr fun a _ => ?_
  simp only [Function.comp_apply]
  cases hown : a.isOf w with
  | true =>
    have hkey : (Deposit.ofOutput a.id o).key.isOf w = true := hown
    have hwallet : a.id.group.wallet = w := beq_iff_eq.1 hown
    have hconf := s.isConfirmed_share hkey
    rw [hkey, hwallet, ← hscope, ← hconf, Bool.true_and, Bool.and_true]
    rfl
  | false =>
    have hkey : (Deposit.ofOutput a.id o).key.isOf w = false := hown
    rw [hkey, Bool.false_and, Bool.false_and, Bool.and_false]

theorem filter_newDeposits (hscope : (s.share w).inScope scope' w = s.inScope scope w)
    (outputs : List StagedOutput) (applied : List LedgerKey) :
    (s.newDeposits scope outputs applied).filter (·.key.isOf w) =
      (s.share w).newDeposits scope' outputs (applied.filter (·.isOf w)) := by
  unfold newDeposits
  rw [filter_unapplied, filter_deposits hscope]

/-- The pools of a wallet that deposits touch are those that they touch in its share. -/
theorem filter_touchedPools (s : Store) (w : Int) (pools : List AddressGroup) (ds : List Deposit) :
    (s.touchedPools pools ds).filter (·.wallet == w) =
      (s.share w).touchedPools (pools.filter (·.wallet == w)) (ds.filter (·.key.isOf w)) := by
  unfold touchedPools
  rw [List.filter_comm, List.filter_filter, List.filter_filter]
  refine List.filter_congr fun g _ => ?_
  cases hg : g.wallet == w with
  | false => rw [Bool.and_false, Bool.and_false]
  | true =>
    rw [Bool.and_true, Bool.and_true, List.any_filter]
    refine List.any_congr rfl fun d => ?_
    cases hgroup : d.key.address.group == g with
    | false => rw [Bool.false_and, Bool.false_and, Bool.and_false]
    | true =>
      have hwallet : d.key.address.group.wallet = w := by
        rw [beq_iff_eq.1 hgroup]
        exact beq_iff_eq.1 hg
      rw [LedgerKey.isOf, beq_iff_eq.2 hwallet, isUsed_share hwallet, Bool.true_and,
        Bool.true_and]

/-! ## Pools -/

theorem insertAddress_share {a : Address} (ha : a.isOf w = true) :
    (s.share w).insertAddress a = (s.insertAddress a).map (·.share w) := by
  unfold insertAddress
  have hany : (s.share w).addresses.any (·.id == a.id) = s.addresses.any (·.id == a.id) := by
    refine any_filter_of_imp fun b hb => ?_
    rw [Address.isOf, beq_iff_eq.1 hb]
    exact ha
  rw [hany]
  split
  · rfl
  · simp only [Except.map, share, List.filter_append, List.filter_cons, ha, if_true, List.filter_nil]

/-- Addresses of a wallet are appended in its share. -/
theorem appendAddresses_share {key : ExtendedKey} {index count : Nat} (hg : g.wallet = w) :
    appendAddresses key g index count (s.share w) =
      (appendAddresses key g index count s).map fun e => (e.1, e.2.share w) := by
  induction count generalizing index s with
  | zero => rfl
  | succ count ih =>
    unfold appendAddresses
    cases Result.ofDerivation (key.derive g.kind.toNat index) with
    | error e => rfl
    | ok scripts =>
      have hown : Address.isOf w ⟨⟨g, UInt32.ofNat index⟩, scripts⟩ = true := beq_iff_eq.2 hg
      simp only [bind, Except.bind, insertAddress_share hown]
      cases s.insertAddress ⟨⟨g, UInt32.ofNat index⟩, scripts⟩ with
      | error e => rfl
      | ok s₁ =>
        simp only [Except.map, ih]
        cases appendAddresses key g (index + 1) count s₁ with
        | error e => rfl
        | ok answer => rfl

/-- A pool of a wallet is extended in its share. -/
theorem extendPool_share {buffer : UInt64} (hg : g.wallet = w) :
    (s.share w).extendPool g buffer = (s.extendPool g buffer).map fun e => (e.1, e.2.share w) := by
  have hcount : (s.share w).addressCount g = s.addressCount g := by
    rw [addressCount, addressCount, poolSize, poolSize, pool_share hg]
  have hunused : (s.share w).unusedCount g = s.unusedCount g := by
    rw [unusedCount, unusedCount, hcount, nextUnused_share hg]
  unfold extendPool
  rw [hunused, account?_share hg]
  split
  · rfl
  · split
    · rfl
    · rename_i account _
      unfold createAddresses
      rw [hcount]
      cases Result.ofDerivation (ExtendedKey.ofText account.extendedKey) with
      | error e => rfl
      | ok key => exact appendAddresses_share hg

/-- Pools of a wallet are extended in its share. -/
theorem extendPools_share {buffer : UInt64} {gs : List AddressGroup} (hgs : ∀ g ∈ gs, g.wallet = w) :
    extendPools buffer gs (s.share w) =
      (extendPools buffer gs s).map fun e => (e.1, e.2.share w) := by
  induction gs generalizing s with
  | nil => rfl
  | cons g gs ih =>
    unfold extendPools
    rw [extendPool_share (hgs g List.mem_cons_self)]
    cases s.extendPool g buffer with
    | error e => rfl
    | ok first =>
      simp only [bind, Except.bind, Except.map, ih fun g' hg' => hgs g' (List.mem_cons_of_mem _ hg')]
      cases extendPools buffer gs first.2 with
      | error e => rfl
      | ok more => rfl

/-- Extending adds addresses of the pools that are extended. -/
theorem share_extendPools_of_ne {buffer : UInt64} {gs : List AddressGroup} {created : List Address}
    (hgs : ∀ g ∈ gs, g.wallet ≠ w) (h : extendPools buffer gs s = .ok (created, t)) :
    t.share w = s.share w ∧ created.filter (·.isOf w) = [] := by
  have hnone : created.filter (·.isOf w) = [] := by
    refine List.filter_eq_nil_iff.2 fun a ha => ?_
    rw [Address.isOf, beq_iff_eq]
    exact hgs _ (group_of_mem_extendPools h a ha)
  refine ⟨?_, hnone⟩
  simp only [eq_of_extendPools h, share, List.filter_append, hnone, List.append_nil]

/-- Whatever pools are extended, those of a wallet are extended in its share. -/
theorem filter_extendPools {buffer : UInt64} {gs : List AddressGroup} {created : List Address}
    (h : extendPools buffer gs s = .ok (created, t)) :
    extendPools buffer (gs.filter (·.wallet == w)) (s.share w) =
      .ok (created.filter (·.isOf w), t.share w) := by
  induction gs generalizing s created with
  | nil => cases h; rfl
  | cons g gs ih =>
    unfold extendPools at h
    obtain ⟨⟨first, m⟩, hfirst, h⟩ := bind_eq_ok_iff.1 h
    obtain ⟨⟨more, t'⟩, hmore, h⟩ := bind_eq_ok_iff.1 h
    cases h
    have hrest := ih hmore
    -- the first pool by itself
    have hone : extendPools buffer [g] s = .ok (first ++ [], m) :=
      bind_eq_ok_iff.2 ⟨(first, m), hfirst, rfl⟩
    rw [List.append_nil] at hone
    rw [List.filter_cons, List.filter_append]
    by_cases hg : g.wallet = w
    · have hown : first.filter (·.isOf w) = first := by
        refine List.filter_eq_self.2 fun a ha => ?_
        have hgroup := group_of_mem_extendPools hone a ha
        rw [Address.isOf, List.mem_singleton.1 hgroup]
        exact beq_iff_eq.2 hg
      rw [if_pos (beq_iff_eq.2 hg), extendPools, extendPool_share hg, hfirst, hown]
      exact bind_eq_ok_iff.2 ⟨_, rfl, bind_eq_ok_iff.2 ⟨_, hrest, rfl⟩⟩
    · have hne : ∀ g' ∈ [g], g'.wallet ≠ w := fun g' hg' => List.mem_singleton.1 hg' ▸ hg
      obtain ⟨hshare, hnone⟩ := share_extendPools_of_ne hne hone
      rw [if_neg fun h => hg (beq_iff_eq.1 h), hnone, List.nil_append, ← hshare]
      exact hrest

/-! ## Rounds -/

/-- A round touches pools of the wallets of its deposits. -/
theorem wallet_of_mem_touchedPools {pools : List AddressGroup} {ds : List Deposit}
    (hds : ∀ d ∈ ds, d.key.isOf w = true) (hg : g ∈ s.touchedPools pools ds) : g.wallet = w := by
  obtain ⟨d, hd, htouched⟩ := List.any_eq_true.1 (List.mem_filter.1 hg).2
  rw [Bool.and_eq_true, beq_iff_eq] at htouched
  rw [← htouched.1]
  exact beq_iff_eq.1 (hds d hd)

/-- Where there is nothing new, the rounds are over. -/
theorem Rounds.eq_of_nil {buffer : UInt64} {outputs : List StagedOutput} {pools : List AddressGroup}
    {applied : List LedgerKey} {found : DepositOutcome}
    (h : Rounds scope buffer outputs pools applied s found t)
    (hnone : s.newDeposits scope outputs applied = []) : found = ⟨0, 1, []⟩ ∧ t = s := by
  cases h with
  | stop => exact ⟨rfl, rfl⟩
  | last hnew hextend =>
    rw [hnew, hnone, touchedPools_nil] at hextend
    cases hextend
    rw [hnew, hnone]
    exact ⟨rfl, rfl⟩
  | round hnew hextend hgrown =>
    rw [hnew, hnone, touchedPools_nil] at hextend
    cases hextend
    exact absurd rfl hgrown

/-- What a round records and extends for a wallet is what it does in the share. -/
theorem share_round {buffer : UInt64} {outputs : List StagedOutput} {pools : List AddressGroup}
    {applied : List LedgerKey} {new : List Deposit} {created : List Address}
    (hscope : (s.share w).inScope scope' w = s.inScope scope w)
    (hnew : new = s.newDeposits scope outputs applied)
    (h : extendPools buffer (s.touchedPools pools new) (recordAll new s).2 = .ok (created, t)) :
    new.filter (·.key.isOf w) =
        (s.share w).newDeposits scope' outputs (applied.filter (·.isOf w)) ∧
      extendPools buffer
        ((s.share w).touchedPools (pools.filter (·.wallet == w)) (new.filter (·.key.isOf w)))
        (recordAll (new.filter (·.key.isOf w)) (s.share w)).2 =
          .ok (created.filter (·.isOf w), t.share w) := by
  refine ⟨hnew ▸ filter_newDeposits hscope outputs applied, ?_⟩
  rw [← filter_touchedPools, ← share_recordAll]
  exact filter_extendPools h

/-- Every new deposit of a round is written, in the store and in every share. -/
theorem WellFormed.fst_recordAll (hs : s.WellFormed) (p : LedgerKey → Bool) (w : Int)
    {outputs : List StagedOutput} {applied : List LedgerKey} {new : List Deposit}
    (hnew : new = s.newDeposits scope outputs applied) :
    (recordAll new s).1 = new.length ∧
      (recordAll (new.filter (p ·.key)) (s.share w)).1 = (new.filter (p ·.key)).length := by
  have hnodup : (new.map (·.key)).Nodup := hnew ▸ nodup_keys_unapplied applied _
  have hfree : ∀ d ∈ new, ∀ r ∈ s.ledger, r.key = d.key → r.deposit.isUnconfirmed = true := by
    intro d hd r hr hkey
    obtain ⟨-, hconf, -⟩ := isDue_of_mem_newDeposits (hnew ▸ hd)
    rw [hs.isConfirmed_eq, hs.row?_eq_some_iff.2 ⟨hr, hkey⟩, Option.any_some] at hconf
    rw [(hs.rows r hr).isUnconfirmed_eq, hconf]
    rfl
  refine ⟨fst_recordAll_eq_length hnodup hfree, fst_recordAll_eq_length ?_ ?_⟩
  · exact hnodup.sublist (List.filter_sublist.map _)
  · intro d hd r hr
    exact hfree d (List.mem_filter.1 hd).1 r (List.mem_filter.1 hr).1

/-- **The rounds of a store** are rounds of every share, under any scope that agrees on its wallet. The
share may be done with them before the store is. The deposits that are recorded are counted by their
keys. -/
theorem rounds_share {buffer : UInt64} {outputs : List StagedOutput} {pools : List AddressGroup}
    {applied : List LedgerKey} {found : DepositOutcome} (hs : s.WellFormed)
    (h : Rounds scope buffer outputs pools applied s found t) :
    ∃ keys : List LedgerKey, found.deposits = keys.length ∧
      (∀ k ∈ keys, s.inScope scope k.address.group.wallet = true) ∧
      ∀ w scope', (s.share w).inScope scope' w = s.inScope scope w → ∃ found',
        Rounds scope' buffer outputs (pools.filter (·.wallet == w)) (applied.filter (·.isOf w))
          (s.share w) found' (t.share w) ∧
        found'.deposits = keys.countP (·.isOf w) ∧
        found'.created = found.created.filter (·.isOf w) := by
  have hcount : ∀ (w : Int) (new : List Deposit),
      (new.map (·.key)).countP (·.isOf w) = (new.filter (·.key.isOf w)).length := by
    intro w new
    rw [List.countP_map, List.countP_eq_length_filter]
    rfl
  have hcovered : ∀ {s : Store} {applied : List LedgerKey} {new : List Deposit},
      new = s.newDeposits scope outputs applied →
      ∀ k ∈ new.map (·.key), s.inScope scope k.address.group.wallet = true := by
    intro s applied new hnew k hk
    obtain ⟨d, hd, rfl⟩ := List.mem_map.1 hk
    obtain ⟨⟨o, -, a, -, -, hscope, rfl⟩, -, -⟩ := isDue_of_mem_newDeposits (hnew ▸ hd)
    exact hscope
  induction h with
  | @stop applied s hnone =>
    refine ⟨[], rfl, fun k hk => absurd hk List.not_mem_nil, ?_⟩
    intro w scope' hscope
    refine ⟨_, .stop ?_, rfl, rfl⟩
    rw [← filter_newDeposits hscope, hnone]
    rfl
  | @last applied s t new hnew hextend =>
    refine ⟨new.map (·.key), ?_, hcovered hnew, ?_⟩
    · rw [(hs.fst_recordAll (fun _ => true) 0 hnew).1, List.length_map]
    · intro w scope' hscope
      obtain ⟨hnew', hextend'⟩ := share_round hscope hnew hextend
      refine ⟨_, .last hnew' hextend', ?_, rfl⟩
      rw [hcount]
      exact (hs.fst_recordAll (LedgerKey.isOf w) w hnew).2
  | @round applied s m t new created rest hnew hextend hgrown hnext ih =>
    obtain ⟨keys, hkeys, hcov, hshares⟩ := ih (wellFormed_round hs hnew hextend)
    have hwallets := (frame_round hextend).1
    refine ⟨new.map (·.key) ++ keys, ?_, ?_, ?_⟩
    · rw [List.length_append, List.length_map, ← hkeys, (hs.fst_recordAll (fun _ => true) 0 hnew).1]
    · intro k hk
      rcases List.mem_append.1 hk with hk | hk
      · exact hcovered hnew k hk
      · rw [← inScope_congr hwallets]
        exact hcov k hk
    · intro w scope' hscope
      obtain ⟨hnew', hextend'⟩ := share_round hscope hnew hextend
      have hwritten := (hs.fst_recordAll (LedgerKey.isOf w) w hnew).2
      have hscope' : (m.share w).inScope scope' w = m.inScope scope w := by
        rw [inScope_congr hwallets, ← hscope]
        exact inScope_congr (congrArg (List.filter _) hwallets) w
      obtain ⟨found', hrounds, hdeposits, hcreated⟩ := hshares w scope' hscope'
      have happlied : (applied ++ new.map (·.key)).filter (·.isOf w) =
          applied.filter (·.isOf w) ++ (new.filter (·.key.isOf w)).map (·.key) := by
        rw [List.filter_append, List.filter_map]
        rfl
      rw [happlied] at hrounds
      rw [List.countP_append, hcount, ← hwritten, ← hdeposits, List.filter_append, ← hcreated]
      by_cases hnone : created.filter (·.isOf w) = []
      · -- no pool of the wallet has grown, so its rounds end here
        rw [hnone] at hextend'
        obtain ⟨rfl, hlast⟩ := hrounds.eq_of_nil (newDeposits_of_quiet hnew' hextend')
        rw [hlast, hnone]
        exact ⟨_, .last hnew' hextend', rfl, rfl⟩
      · exact ⟨_, .round hnew' hextend' hnone hrounds, rfl, rfl⟩

/-- If no other wallet takes part, all new deposits are of the share. -/
theorem newDeposits_of_share (outputs : List StagedOutput) {applied : List LedgerKey}
    (hothers : ∀ v, v ≠ w → m.inScope scope v = false) (happlied : ∀ k ∈ applied, k.isOf w = true) :
    m.newDeposits scope outputs applied = (m.share w).newDeposits scope outputs applied ∧
      ∀ d ∈ m.newDeposits scope outputs applied, d.key.isOf w = true := by
  have hown : ∀ d ∈ m.newDeposits scope outputs applied, d.key.isOf w = true := by
    intro d hd
    obtain ⟨⟨o, -, a, -, -, hscope, rfl⟩, -, -⟩ := isDue_of_mem_newDeposits hd
    by_contra hne
    rw [hothers a.id.group.wallet fun heq => hne (beq_iff_eq.2 heq)] at hscope
    cases hscope
  have hscope : (m.share w).inScope scope w = m.inScope scope w := inScope_share
  have hsplit := filter_newDeposits hscope outputs applied
  rw [List.filter_eq_self.2 hown, List.filter_eq_self.2 happlied] at hsplit
  exact ⟨hsplit, hown⟩

/-- What a round does in the share it does in the store, and nothing else there. -/
theorem round_of_share {buffer : UInt64} {pools : List AddressGroup} {new : List Deposit}
    {created : List Address} (hnew : ∀ d ∈ new, d.key.isOf w = true)
    (h : extendPools buffer ((m.share w).touchedPools (pools.filter (·.wallet == w)) new)
      (recordAll new (m.share w)).2 = .ok (created, t)) :
    ∃ t', extendPools buffer (m.touchedPools pools new) (recordAll new m).2 = .ok (created, t') ∧
      t'.share w = t ∧ ∀ v, v ≠ w → t'.share v = m.share v := by
  have hself : new.filter (·.key.isOf w) = new := List.filter_eq_self.2 hnew
  have hwallet : ∀ g ∈ m.touchedPools pools new, g.wallet = w := fun g hg =>
    wallet_of_mem_touchedPools hnew hg
  have htouched : (m.share w).touchedPools (pools.filter (·.wallet == w)) new =
      m.touchedPools pools new := by
    have hsplit := m.filter_touchedPools w pools new
    rw [hself, List.filter_eq_self.2 fun g hg => beq_iff_eq.2 (hwallet g hg)] at hsplit
    exact hsplit.symm
  have hrecorded : (recordAll new m).2.share w = (recordAll new (m.share w)).2 := by
    rw [share_recordAll, hself]
  rw [htouched, ← hrecorded, extendPools_share hwallet] at h
  obtain ⟨⟨more, t'⟩, hextend, heq⟩ := map_eq_ok_iff.1 h
  cases heq
  refine ⟨t', hextend, rfl, ?_⟩
  intro v hv
  have hnone : new.filter (·.key.isOf v) = [] := by
    refine List.filter_eq_nil_iff.2 fun d hd hown => hv ?_
    exact (beq_iff_eq.1 hown).symm.trans (beq_iff_eq.1 (hnew d hd))
  have hne : ∀ g ∈ m.touchedPools pools new, g.wallet ≠ v := fun g hg heq =>
    hv (heq.symm.trans (hwallet g hg))
  rw [(share_extendPools_of_ne hne hextend).1, share_recordAll, hnone]
  rfl

/-- **The rounds of a share** are rounds of the store if no other wallet takes part. -/
theorem rounds_of_share {buffer : UInt64} {outputs : List StagedOutput} {pools : List AddressGroup}
    {applied : List LedgerKey} {found : DepositOutcome}
    (hothers : ∀ v, v ≠ w → m.inScope scope v = false) (happlied : ∀ k ∈ applied, k.isOf w = true)
    (h : Rounds scope buffer outputs (pools.filter (·.wallet == w)) applied (m.share w) found t) :
    ∃ t', Rounds scope buffer outputs pools applied m found t' ∧ t'.share w = t ∧
      ∀ v, v ≠ w → t'.share v = m.share v := by
  generalize hpools : pools.filter (·.wallet == w) = ps at h
  generalize hy : m.share w = y at h
  induction h generalizing m with
  | @stop applied y hnone =>
    rw [← hy, ← (newDeposits_of_share outputs hothers happlied).1] at hnone
    exact ⟨m, .stop hnone, hy, fun _ _ => rfl⟩
  | @last applied y t new hnew hextend =>
    subst hpools hy
    obtain ⟨hsame, hown⟩ := newDeposits_of_share outputs hothers happlied
    rw [← hsame] at hnew
    obtain ⟨t', hextend', hshare, hrest⟩ := round_of_share (hnew ▸ hown) hextend
    rw [fst_recordAll_share (hnew ▸ hown)]
    exact ⟨t', .last hnew hextend', hshare, hrest⟩
  | @round applied y y' t new created rest hnew hextend hgrown _ ih =>
    subst hpools hy
    obtain ⟨hsame, hown⟩ := newDeposits_of_share outputs hothers happlied
    rw [← hsame] at hnew
    obtain ⟨m', hextend', hshare, hrest⟩ := round_of_share (hnew ▸ hown) hextend
    have hothers' : ∀ v, v ≠ w → m'.inScope scope v = false := by
      intro v hv
      rw [inScope_congr (frame_round hextend').1]
      exact hothers v hv
    have happlied' : ∀ k ∈ applied ++ new.map (·.key), k.isOf w = true := by
      intro k hk
      rcases List.mem_append.1 hk with hk | hk
      · exact happlied k hk
      · obtain ⟨d, hd, rfl⟩ := List.mem_map.1 hk
        exact hown d (hnew ▸ hd)
    obtain ⟨t', hrounds, hshare', hrest'⟩ := ih hothers' happlied' hshare
    rw [fst_recordAll_share (hnew ▸ hown)]
    exact ⟨t', .round hnew hextend' hgrown hrounds, hshare', fun v hv =>
      (hrest' v hv).trans (hrest v hv)⟩

/-! ## Spends and tips -/

/-- A row of a wallet is spent by a batch in the share if it is in the store. -/
theorem isSpentBy_share (hscope : (s.share w).inScope scope' w = s.inScope scope w)
    (spends : List StagedSpend) {r : LedgerRow} (hr : r.isOf w = true) :
    (s.share w).isSpentBy scope' spends r = s.isSpentBy scope spends r := by
  unfold isSpentBy
  rw [beq_iff_eq.1 hr, hscope]

/-- The spends of a batch are recorded in the share of a wallet. -/
theorem share_matchSpends (hscope : (s.share w).inScope scope' w = s.inScope scope w)
    (batch : Batch) :
    (s.matchSpends scope batch).2.share w = ((s.share w).matchSpends scope' batch).2.share w ∧
      (s.ledger.filter (s.isSpentBy scope batch.spends)).countP (·.isOf w) =
        ((s.share w).matchSpends scope' batch).1 := by
  have hown : ∀ r ∈ (s.share w).ledger, r.isOf w = true := fun r hr => (List.mem_filter.1 hr).2
  have hledger : ∀ (spent : LedgerRow → Bool) (rows : List LedgerRow),
      (rows.map fun r => if spent r then r.spendBy batch.spends else r).filter (·.isOf w) =
        (rows.filter (·.isOf w)).map fun r => if spent r then r.spendBy batch.spends else r := by
    intro spent rows
    refine filter_map_comm fun r _ => ?_
    split
    · rw [LedgerRow.isOf, (r.key_spendBy _).1]
      rfl
    · rfl
  have hsame : (s.share w).ledger.map (fun r =>
      if (s.share w).isSpentBy scope' batch.spends r then r.spendBy batch.spends else r) =
        (s.share w).ledger.map fun r =>
          if s.isSpentBy scope batch.spends r then r.spendBy batch.spends else r := by
    refine List.map_congr_left fun r hr => ?_
    rw [isSpentBy_share hscope batch.spends (hown r hr)]
  constructor
  · have hspent : (s.matchSpends scope batch).2.ledger.filter (·.isOf w) =
        ((s.share w).matchSpends scope' batch).2.ledger.filter (·.isOf w) := by
      simp only [matchSpends]
      rw [hledger, hsame, hledger, List.filter_eq_self.2 hown]
      rfl
    have htwice : ∀ {α : Type} (p : α → Bool) (rows : List α),
        rows.filter p = (rows.filter p).filter p := fun p rows =>
      (filter_filter_of_imp fun _ h => h).symm
    exact share_congr (htwice _ _) (htwice _ _) (htwice _ _) hspent
  · rw [List.countP_eq_length_filter, List.filter_comm]
    refine congrArg List.length (List.filter_congr fun r hr => ?_)
    exact (isSpentBy_share hscope batch.spends (hown r hr)).symm

/-- The spends of a batch leave the share of a wallet that takes no part. -/
theorem share_matchSpends_of_not_inScope (hscope : s.inScope scope w = false) (batch : Batch) :
    (s.matchSpends scope batch).2.share w = s.share w := by
  have hledger : ((s.matchSpends scope batch).2.ledger).filter (·.isOf w) =
      s.ledger.filter (·.isOf w) := by
    simp only [matchSpends]
    rw [filter_map_comm]
    · refine map_eq_self fun r hr => if_neg ?_
      rw [isSpentBy, beq_iff_eq.1 (List.mem_filter.1 hr).2, hscope, Bool.false_and, Bool.false_and]
      exact Bool.false_ne_true
    · intro r _
      split
      · rw [LedgerRow.isOf, (r.key_spendBy _).1]
        rfl
      · rfl
  exact share_congr rfl rfl rfl hledger

end Store

/-- Scopes that agree on some wallets move them alike. -/
theorem Scope.Moves.congr {scope scope' : Scope} {tip : BlockRef} {chain : ChainView}
    {rows rows' : List WalletRow} (h : scope.Moves tip chain rows rows')
    (hsame : ∀ row ∈ rows, scope'.covers row = scope.covers row) :
    scope'.Moves tip chain rows rows' := by
  obtain ⟨hashes, hread, rfl⟩ := h
  refine ⟨hashes, fun row hrow hcovers => ?_, List.map_congr_left fun row hrow => ?_⟩
  · rw [hsame row hrow] at hcovers
    exact hread row hrow hcovers
  · rw [move, move, hsame row hrow]

/-- Wallets move one by one. -/
theorem Scope.Moves.filter {scope : Scope} {tip : BlockRef} {chain : ChainView}
    {rows rows' : List WalletRow} (h : scope.Moves tip chain rows rows') (w : Int) :
    scope.Moves tip chain (rows.filter (·.id == w)) (rows'.filter (·.id == w)) := by
  obtain ⟨hashes, hread, rfl⟩ := h
  refine ⟨hashes, fun row hrow => hread row (List.mem_filter.1 hrow).1, ?_⟩
  exact filter_map_comm fun row _ => by rw [scope.id_move]

/-- Wallets that take no part stay. -/
theorem Scope.Moves.eq_self {scope : Scope} {tip : BlockRef} {chain : ChainView}
    {rows rows' : List WalletRow} (h : scope.Moves tip chain rows rows')
    (hnone : ∀ row ∈ rows, scope.covers row = false) : rows' = rows := by
  obtain ⟨hashes, -, rfl⟩ := h
  refine map_eq_self fun row hrow => Scope.move_of_not ?_
  rw [hnone row hrow]
  exact Bool.false_ne_true

namespace Store

variable {s t : Store} {w : Int}

/-- **A batch leaves the share of a wallet that takes no part**: its tip and locator, its accounts and
addresses and its ledger. -/
theorem share_applyBatch_of_not_inScope (hs : s.WellFormed) {config : Config} {batch : Batch}
    {header : Option BatchHeader} {chain : ChainView} {outcome : BatchOutcome}
    (hscope : s.inScope (Scope.ofBatch config header) w = false)
    (h : s.applyBatch config batch header chain = .ok (outcome, t)) : t.share w = s.share w := by
  obtain ⟨found, m, names, hrounds, hmoved⟩ := parts_of_applyBatch h
  have hwallets := (frame_rounds hrounds).1
  obtain ⟨keys, -, -, hshares⟩ := rounds_share hs hrounds
  obtain ⟨found', hown, -, -⟩ := hshares w (Scope.ofBatch config header) inScope_share
  -- no deposit of the wallet is due, so its rounds are over at once
  have hnew : (s.share w).newDeposits (Scope.ofBatch config header) batch.outputs
      (([] : List LedgerKey).filter (·.isOf w)) = [] := by
    rw [List.eq_nil_iff_forall_not_mem]
    intro d hd
    rw [← filter_newDeposits inScope_share] at hd
    obtain ⟨hmem, hkey⟩ := List.mem_filter.1 hd
    obtain ⟨⟨o, -, a, -, -, hdue, rfl⟩, -, -⟩ := isDue_of_mem_newDeposits hmem
    have hwallet : a.id.group.wallet = w := beq_iff_eq.1 hkey
    rw [hwallet, hscope] at hdue
    cases hdue
  have hdeposited : m.share w = s.share w := (hown.eq_of_nil hnew).2
  have hspent : (m.matchSpends (Scope.ofBatch config header) batch).2.share w = s.share w := by
    rw [share_matchSpends_of_not_inScope, hdeposited]
    rw [inScope_congr hwallets]
    exact hscope
  have hrows : t.wallets.filter (·.id == w) = s.wallets.filter (·.id == w) := by
    cases header with
    | none => rw [wallets_applyBatch_none h]
    | some header =>
      refine ((moves_applyBatch hs h).filter w).eq_self fun row hrow => ?_
      obtain ⟨hmem, hid⟩ := List.mem_filter.1 hrow
      exact inScope_eq_false_iff.1 hscope row hmem (beq_iff_eq.1 hid)
  rw [← hspent, frame_advance hmoved]
  refine share_congr ?_ rfl rfl rfl
  rw [hrows, ← hwallets]
  rfl

end Store

end WalletLedger
