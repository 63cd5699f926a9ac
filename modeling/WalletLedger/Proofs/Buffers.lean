import WalletLedger.Proofs.TopUp

/-!
# Buffers of every size

A buffer is counted in 64 bits, the addresses that a pool lacks in 32, and so is the end of the range of
their indexes. A pool that lacks more than the range can hold is extended by the remainder or by nothing,
and the call does not tell.

* `Store.lacking`, `Store.added`: how many addresses a pool lacks, and how many it gets.
* `Store.Extended`: what a pool is after it is extended.
* `Store.created_of_extendPool`, `Store.pool_of_extendPool`: what is created, and where it goes.
* `Store.buffered_iff`: when the buffer is there afterwards.
* `Store.extended_of_extendPool`: a pool that is extended ends a buffer after its next unused index if and
  only if its size with the addresses it lacks fits into 32 bits.
* `Store.extendPool_eq_nil`: the call answers with no address where none is added.
-/

namespace WalletLedger

namespace Store

variable {s s' : Store} {g : AddressGroup} {buffer : UInt64} {created : List Address}

/-- How many addresses a pool lacks to end a buffer after the last used one. -/
def lacking (s : Store) (g : AddressGroup) (buffer : UInt64) : Nat :=
  buffer.toNat - (s.poolSize g - s.nextUnused g)

/-- How many addresses a pool gets: as many as it lacks, modulo `2 ^ 32`, but none where the index after
the last of them does not fit into 32 bits. -/
def added (s : Store) (g : AddressGroup) (buffer : UInt64) : Nat :=
  if s.poolSize g + s.lacking g buffer % 4294967296 < 4294967296 then
    s.lacking g buffer % 4294967296
  else 0

/-- A pool after it is extended, with the addresses that are created. -/
structure Extended (s : Store) (g : AddressGroup) (buffer : UInt64) (created : List Address)
    (s' : Store) : Prop where
  /-- They are added behind all others, and nothing else changes. -/
  appended : s' = { s with addresses := s.addresses ++ created }
  group : ∀ a ∈ created, a.id.group = g
  /-- They go on where the pool ends. -/
  index : created.map (·.id.index.toNat) = List.range' (s.poolSize g) (s.added g buffer)
  pool : (s'.pool g).map (·.id.index.toNat) = List.range (s'.poolSize g)
  sufficient : buffer.toNat ≤ s.poolSize g - s.nextUnused g → created = [] ∧ s' = s
  /-- None of them is used where rows refer to addresses that exist. -/
  unused : (∀ r ∈ s.ledger, r.key.address.group = g → ∃ a ∈ s.addresses, a.id = r.key.address) →
    ∀ a ∈ created, s.isUsed a.id = false
  /-- Then the buffer is there if and only if nothing is lacking, or the size of the pool with all that
  is lacking fits into 32 bits. -/
  buffered : buffer.toNat ≤ s'.poolSize g - s'.nextUnused g ↔
    (s.lacking g buffer = 0 ∨ s.poolSize g + s.lacking g buffer < 4294967296) ∧
      ∀ a ∈ created, s.isUsed a.id = false

/-! ## New addresses -/

theorem index_appendAddresses {key : ExtendedKey} {index count : Nat}
    (h : appendAddresses key g index count s = .ok (created, s')) :
    created.map (·.id.index.toNat) = List.range' index count := by
  obtain ⟨-, hids, hlimit⟩ := eq_of_appendAddresses h
  have hindex := congrArg (List.map fun id : AddressId => id.index.toNat) hids
  rw [List.map_map, List.map_map] at hindex
  refine hindex.trans (map_eq_self fun i hi => ?_)
  have hword : ExtendedKey.numberLimit < UInt32.size := by decide
  obtain ⟨hfirst, hlast⟩ := List.mem_range'_1.1 hi
  exact UInt32.toNat_ofNat_of_lt' (by omega)

theorem added_le (s : Store) (g : AddressGroup) (buffer : UInt64) :
    s.added g buffer ≤ s.lacking g buffer := by
  unfold added
  split
  · exact Nat.mod_le _ _
  · exact Nat.zero_le _

theorem added_eq_zero (h : buffer.toNat ≤ s.poolSize g - s.nextUnused g) :
    s.added g buffer = 0 := by
  have hnone : s.lacking g buffer = 0 := Nat.sub_eq_zero_of_le h
  exact Nat.le_zero.1 (hnone ▸ s.added_le g buffer)

/-- A used address among the new ones raises the next unused index above the pool as it was. -/
theorem poolSize_lt_nextUnused (happended : s' = { s with addresses := s.addresses ++ created })
    {a : Address} (ha : a ∈ created) (hgroup : a.id.group = g) (hused : s.isUsed a.id = true)
    (hpast : s.poolSize g ≤ a.id.index.toNat) : s.poolSize g < s'.nextUnused g := by
  have hmem : a ∈ s'.pool g := by
    rw [happended, pool_append]
    exact List.mem_append_right _ (List.mem_filter.2 ⟨ha, beq_iff_eq.2 hgroup⟩)
  have hused' : s'.isUsed a.id = true := by
    rw [happended]
    exact hused
  have hlt := nextUnused_le_iff.1 (Nat.le_refl (s'.nextUnused g)) a hmem hused'
  omega

/-! ## Pools without gaps -/

section

variable (hindex : (s.pool g).map (·.id.index.toNat) = List.range (s.poolSize g))
include hindex

/-- A pool with an address at each index of 32 bits gets none: those that could be derived are there. -/
theorem created_eq_nil (hfull : UInt32.size ≤ s.poolSize g)
    (h : s.extendPool g buffer = .ok (created, s')) : created = [] := by
  rcases extendPool_cases h with ⟨-, hnone, -⟩ | ⟨-, _, _, -, -, happend⟩
  · exact hnone
  · refine List.eq_nil_iff_forall_not_mem.2 fun a ha => ?_
    obtain ⟨hgroup, -, hnew⟩ := new_of_appendAddresses happend a ha
    obtain ⟨b, hb, hid⟩ :=
      exists_mem_pool hindex hgroup (Nat.lt_of_lt_of_le a.id.index.toNat_lt hfull)
    exact hnew b (List.mem_filter.1 hb).1 hid

/-- The range of new indexes is as long as there are addresses to add. -/
theorem spanLength_addressCount (hsize : s.poolSize g < UInt32.size) (buffer : UInt64) :
    spanLength (s.addressCount g) (UInt32.ofNat (buffer.toNat - s.unusedCount g)) =
      s.added g buffer := by
  have hnext := nextUnused_le_poolSize hindex
  rw [spanLength_eq, toNat_addressCount hsize, UInt32.toNat_ofNat',
    unusedCount_eq hsize (Nat.lt_of_le_of_lt hnext hsize)]
  rfl

/-- Whatever number of addresses a pool lacks, those that are created go on where it ends. -/
theorem created_of_extendPool (h : s.extendPool g buffer = .ok (created, s')) :
    (∀ a ∈ created, a.id.group = g) ∧
      created.map (·.id.index.toNat) = List.range' (s.poolSize g) (s.added g buffer) := by
  rcases Nat.lt_or_ge (s.poolSize g) UInt32.size with hsize | hfull
  · have hnext := nextUnused_le_poolSize hindex
    have hunused := unusedCount_eq hsize (Nat.lt_of_le_of_lt hnext hsize)
    rcases extendPool_cases h with ⟨hle, rfl, -⟩ | ⟨-, _, _, -, -, happend⟩
    · rw [added_eq_zero (hunused ▸ hle)]
      exact ⟨nofun, rfl⟩
    · refine ⟨fun a ha => (new_of_appendAddresses happend a ha).1, ?_⟩
      rw [toNat_addressCount hsize, spanLength_addressCount hindex hsize] at happend
      exact index_appendAddresses happend
  · have hword : UInt32.size = 4294967296 := rfl
    have hnone : s.added g buffer = 0 := if_neg (by omega)
    rw [created_eq_nil hindex hfull h, hnone]
    exact ⟨nofun, rfl⟩

/-- Where no address is added, the call answers so, whether the buffer is there or not. -/
theorem extendPool_eq_nil {account : Account} (hsize : s.poolSize g < UInt32.size)
    (haccount : s.account? g.wallet g.account = some account)
    (hkey : (ExtendedKey.ofText account.extendedKey).isOk) (hnone : s.added g buffer = 0) :
    s.extendPool g buffer = .ok ([], s) := by
  unfold extendPool
  split
  · rfl
  · rw [haccount]
    dsimp only [createAddresses]
    rw [spanLength_addressCount hindex hsize, hnone]
    cases hread : ExtendedKey.ofText account.extendedKey with
    | ok key => rfl
    | error e =>
      rw [hread] at hkey
      cases hkey

theorem index_of_mem_created (h : s.extendPool g buffer = .ok (created, s')) {a : Address}
    (ha : a ∈ created) : s.poolSize g ≤ a.id.index.toNat ∧ a.id.index.toNat < s.poolSize g + s.added g buffer := by
  have hmem : a.id.index.toNat ∈ created.map (·.id.index.toNat) := List.mem_map_of_mem ha
  rwa [(created_of_extendPool hindex h).2, List.mem_range'_1] at hmem

/-- The pool goes on with what is created, and has so many more addresses. -/
theorem pool_of_extendPool (h : s.extendPool g buffer = .ok (created, s')) :
    s'.pool g = s.pool g ++ created ∧ s'.poolSize g = s.poolSize g + s.added g buffer := by
  obtain ⟨hgroup, hcreated⟩ := created_of_extendPool hindex h
  have hpool : s'.pool g = s.pool g ++ created := by
    rw [eq_of_extendPool h, pool_append,
      List.filter_eq_self.2 fun a ha => beq_iff_eq.2 (hgroup a ha)]
  have hlength := congrArg List.length hcreated
  rw [List.length_map, List.length_range'] at hlength
  refine ⟨hpool, ?_⟩
  rw [poolSize, hpool, List.length_append, hlength, poolSize]

/-- Rows of a pool that refer to its addresses leave those behind them unused. -/
theorem isUsed_eq_false
    (hrows : ∀ r ∈ s.ledger, r.key.address.group = g → ∃ a ∈ s.addresses, a.id = r.key.address)
    {id : AddressId} (hgroup : id.group = g) (hid : s.poolSize g ≤ id.index.toNat) :
    s.isUsed id = false := by
  by_contra hused
  rw [Bool.not_eq_false, isUsed_iff] at hused
  obtain ⟨k, hk, rfl⟩ := hused
  obtain ⟨r, hr, rfl⟩ := List.mem_map.1 hk
  obtain ⟨a, ha, hkey⟩ := hrows r hr hgroup
  have hmem : a ∈ s.pool g := List.mem_filter.2 ⟨ha, beq_iff_eq.2 (hkey ▸ hgroup)⟩
  have hlt := index_lt_poolSize hindex hmem
  rw [hkey] at hlt
  omega

/-- **The buffer is there** if and only if the pool with the addresses that it lacks fits into 32 bits and
none of those that are created is used. -/
theorem buffered_iff (h : s.extendPool g buffer = .ok (created, s')) :
    buffer.toNat ≤ s'.poolSize g - s'.nextUnused g ↔
      (s.lacking g buffer = 0 ∨ s.poolSize g + s.lacking g buffer < 4294967296) ∧
        ∀ a ∈ created, s.isUsed a.id = false := by
  have hnext := nextUnused_le_poolSize hindex
  have hsize := (pool_of_extendPool hindex h).2
  by_cases hfresh : ∀ a ∈ created, s.isUsed a.id = false
  · rw [hsize, nextUnused_append hfresh (eq_of_extendPool h) g, and_iff_left hfresh]
    unfold added lacking
    split <;> omega
  · -- a used address that is new leaves fewer than were created behind it
    refine iff_of_false (fun hle => hfresh fun a ha => ?_) fun hboth => hfresh hboth.2
    by_contra hused
    rw [Bool.not_eq_false] at hused
    obtain ⟨hfirst, hlast⟩ := index_of_mem_created hindex h ha
    have hgroup := (created_of_extendPool hindex h).1 a ha
    have hraised := poolSize_lt_nextUnused (eq_of_extendPool h) ha hgroup hused hfirst
    have hadded := s.added_le g buffer
    rw [hsize] at hle
    unfold lacking at hadded
    omega

end

/-- **A pool that is extended** keeps its order. It ends a buffer after its next unused index if and only
if its size with the addresses it lacks fits into 32 bits, as long as rows refer to addresses that
exist. -/
theorem extended_of_extendPool
    (hindex : (s.pool g).map (·.id.index.toNat) = List.range (s.poolSize g))
    (h : s.extendPool g buffer = .ok (created, s')) : s.Extended g buffer created s' := by
  obtain ⟨hgroup, hcreated⟩ := created_of_extendPool hindex h
  obtain ⟨hpool, hsize⟩ := pool_of_extendPool hindex h
  constructor
  case appended => exact eq_of_extendPool h
  case group => exact hgroup
  case index => exact hcreated
  case pool =>
    rw [hpool, List.map_append, hindex, hcreated, hsize, List.range'_eq_map_range, ← List.range_add]
  case sufficient =>
    intro hle
    rw [added_eq_zero hle] at hcreated
    obtain rfl := List.map_eq_nil_iff.1 hcreated
    exact ⟨rfl, (eq_of_extendPool h).trans (by rw [List.append_nil])⟩
  case unused =>
    intro hrows a ha
    exact isUsed_eq_false hindex hrows (hgroup a ha) (index_of_mem_created hindex h ha).1
  case buffered => exact buffered_iff hindex h

/-- The pool has three addresses, the last of them unused. A buffer for which it lacks `2 ^ 32` adds none,
and so does the one for which the index after the last address would be `2 ^ 32`. -/
theorem extended_of_extendPool_short :
    (Sample.deposited.pool ⟨1, 0, 0⟩).map (·.id.index.toNat) =
      List.range (Sample.deposited.poolSize ⟨1, 0, 0⟩) ∧
    Sample.deposited.poolSize ⟨1, 0, 0⟩ = 3 ∧ Sample.deposited.nextUnused ⟨1, 0, 0⟩ = 2 ∧
    (Sample.deposited.extendPool ⟨1, 0, 0⟩ 4294967297 = .ok ([], Sample.deposited) ∧
      Sample.deposited.Extended ⟨1, 0, 0⟩ 4294967297 [] Sample.deposited ∧
      Sample.deposited.lacking ⟨1, 0, 0⟩ 4294967297 = 4294967296) ∧
    (Sample.deposited.extendPool ⟨1, 0, 0⟩ 4294967294 = .ok ([], Sample.deposited) ∧
      Sample.deposited.Extended ⟨1, 0, 0⟩ 4294967294 [] Sample.deposited ∧
      Sample.deposited.lacking ⟨1, 0, 0⟩ 4294967294 = 4294967293) := by
  have hindex : (Sample.deposited.pool ⟨1, 0, 0⟩).map (·.id.index.toNat) =
      List.range (Sample.deposited.poolSize ⟨1, 0, 0⟩) := by
    decide
  have hkey : (ExtendedKey.ofText Sample.account.extendedKey).isOk := by
    decide +kernel
  have hmany : Sample.deposited.extendPool ⟨1, 0, 0⟩ 4294967297 = .ok ([], Sample.deposited) :=
    extendPool_eq_nil hindex (by decide) rfl hkey (by decide)
  have hlast : Sample.deposited.extendPool ⟨1, 0, 0⟩ 4294967294 = .ok ([], Sample.deposited) :=
    extendPool_eq_nil hindex (by decide) rfl hkey (by decide)
  exact ⟨hindex, by decide, by decide, ⟨hmany, extended_of_extendPool hindex hmany, by decide⟩,
    ⟨hlast, extended_of_extendPool hindex hlast, by decide⟩⟩

end Store

end WalletLedger
