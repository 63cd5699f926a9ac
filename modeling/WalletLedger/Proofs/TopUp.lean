import WalletLedger.Proofs.Deposits

/-!
# Pools stay topped up

A pool is numbered without gaps and always ends a whole buffer after the highest index that was ever
in use. Deposits extend it, and taking deposits back does not shorten it.

* `Store.Numbered`: the indexes of every pool are those below its size.
* `Store.poolSize_rounds`: what matching does to the sizes of pools.
* `Store.Grown`: what a step does to them, the step lemma being `Store.grown_of_step`.
* `Indexer.History.poolSize_eq`: the size of a pool is the buffer and the peak of its use.
* `Indexer.pools_topped_up`: what the queries show of this.
-/

namespace WalletLedger

namespace Store

variable {s s' t : Store} {staged : Batch → Prop} {scope : Scope} {outputs : List StagedOutput}
variable {g : AddressGroup} {buffer : UInt64} {created : List Address}

/-- Every pool has the indexes below its size, in order, and no more than can be derived. -/
def Numbered (s : Store) : Prop :=
  ∀ g, (s.pool g).map (·.id) = (List.range (s.poolSize g)).map (fun i => ⟨g, UInt32.ofNat i⟩) ∧
    s.poolSize g ≤ ExtendedKey.numberLimit

/-- An account has this pool. -/
def HasPool (s : Store) (g : AddressGroup) : Prop :=
  IsPoolKind g.kind ∧ ∃ account ∈ s.accounts, account.wallet = g.wallet ∧ account.index = g.account

/-! ## The next unused index -/

theorem foldl_max_le_iff (as : List Address) (start bound : Nat) :
    as.foldl (fun m a => max m (a.id.index.toNat + 1)) start ≤ bound ↔
      start ≤ bound ∧ ∀ a ∈ as, a.id.index.toNat < bound := by
  induction as generalizing start with
  | nil => simp
  | cons a as ih =>
    rw [List.foldl_cons, ih, Nat.max_le, List.forall_mem_cons, and_assoc]
    rfl

theorem nextUnused_le_iff {bound : Nat} :
    s.nextUnused g ≤ bound ↔
      ∀ a ∈ s.pool g, s.isUsed a.id = true → a.id.index.toNat < bound := by
  unfold nextUnused
  rw [foldl_max_le_iff]
  simp only [Nat.zero_le, true_and, List.mem_filter, and_imp]

/-- An address at or after the next unused index has no row. -/
theorem isUsed_of_nextUnused_le {a : Address} (ha : a ∈ s.pool g)
    (h : s.nextUnused g ≤ a.id.index.toNat) : s.isUsed a.id = false := by
  cases hused : s.isUsed a.id with
  | false => rfl
  | true =>
    have hlt := nextUnused_le_iff.1 (Nat.le_refl (s.nextUnused g)) a ha hused
    omega

theorem isUsed_iff {id : AddressId} :
    s.isUsed id = true ↔ ∃ k ∈ s.ledger.map (·.key), k.address = id := by
  unfold isUsed
  rw [List.any_eq_true]
  simp

/-- More use, no lower next unused index. -/
theorem nextUnused_mono (hpool : s'.pool g = s.pool g)
    (hused : ∀ a ∈ s.pool g, s.isUsed a.id = true → s'.isUsed a.id = true) :
    s.nextUnused g ≤ s'.nextUnused g := by
  rw [nextUnused_le_iff]
  intro a ha h
  exact nextUnused_le_iff.1 (Nat.le_refl _) a (hpool ▸ ha) (hused a ha h)

theorem pool_congr (ha : s'.addresses = s.addresses) (g : AddressGroup) : s'.pool g = s.pool g := by
  rw [pool, pool, ha]

theorem poolSize_congr (ha : s'.addresses = s.addresses) (g : AddressGroup) :
    s'.poolSize g = s.poolSize g := by
  rw [poolSize, poolSize, pool_congr ha]

theorem nextUnused_congr (ha : s'.addresses = s.addresses)
    (hk : s'.ledger.map (·.key) = s.ledger.map (·.key)) (g : AddressGroup) :
    s'.nextUnused g = s.nextUnused g := by
  have hused : s'.isUsed = s.isUsed := by
    funext id
    rw [Bool.eq_iff_iff, isUsed_iff, isUsed_iff, hk]
  rw [nextUnused, nextUnused, pool_congr ha, hused]

theorem Numbered.congr (h : s.Numbered) (ha : s'.addresses = s.addresses) : s'.Numbered := by
  intro g
  rw [pool_congr ha, poolSize_congr ha]
  exact h g

theorem Numbered.index (h : s.Numbered) (g : AddressGroup) :
    (s.pool g).map (·.id.index.toNat) = List.range (s.poolSize g) := by
  have hids := congrArg (List.map fun id : AddressId => id.index.toNat) (h g).1
  rw [List.map_map, List.map_map] at hids
  refine hids.trans (map_eq_self fun i hi => ?_)
  have hlt := List.mem_range.1 hi
  have hlimit := (h g).2
  exact UInt32.toNat_ofNat_of_lt' (Nat.lt_of_lt_of_le hlt (Nat.le_trans hlimit (by decide)))

/-- An index of a pool without gaps is below its size. -/
theorem index_lt_poolSize (h : (s.pool g).map (·.id.index.toNat) = List.range (s.poolSize g)) {a : Address}
    (ha : a ∈ s.pool g) : a.id.index.toNat < s.poolSize g := by
  have hmem : a.id.index.toNat ∈ (s.pool g).map (·.id.index.toNat) := List.mem_map_of_mem ha
  rw [h] at hmem
  exact List.mem_range.1 hmem

/-- A pool without gaps has an address at each index below its size. -/
theorem exists_mem_pool (h : (s.pool g).map (·.id.index.toNat) = List.range (s.poolSize g)) {id : AddressId}
    (hgroup : id.group = g) (hlt : id.index.toNat < s.poolSize g) : ∃ a ∈ s.pool g, a.id = id := by
  have hmem : id.index.toNat ∈ (s.pool g).map (·.id.index.toNat) := by
    rw [h]
    exact List.mem_range.2 hlt
  obtain ⟨a, ha, hid⟩ := List.mem_map.1 hmem
  have hag : a.id.group = g := beq_iff_eq.1 (List.mem_filter.1 ha).2
  exact ⟨a, ha, AddressId.eq_of_index (hag.trans hgroup.symm) hid⟩

theorem nextUnused_le_poolSize (h : (s.pool g).map (·.id.index.toNat) = List.range (s.poolSize g)) :
    s.nextUnused g ≤ s.poolSize g := by
  rw [nextUnused_le_iff]
  exact fun a ha _ => index_lt_poolSize h ha

theorem Numbered.nextUnused_le (h : s.Numbered) (g : AddressGroup) :
    s.nextUnused g ≤ s.poolSize g := nextUnused_le_poolSize (h.index g)

theorem Numbered.poolSize_lt (h : s.Numbered) (g : AddressGroup) : s.poolSize g < UInt32.size :=
  Nat.lt_of_le_of_lt (h g).2 (by decide)

theorem Numbered.toNat_addressCount (h : s.Numbered) (g : AddressGroup) :
    (s.addressCount g).toNat = s.poolSize g := Store.toNat_addressCount (h.poolSize_lt g)

theorem Numbered.unusedCount_eq (h : s.Numbered) (g : AddressGroup) :
    s.unusedCount g = s.poolSize g - s.nextUnused g :=
  Store.unusedCount_eq (h.poolSize_lt g) (Nat.lt_of_le_of_lt (h.nextUnused_le g) (h.poolSize_lt g))

/-- Addresses in a pool belong to an account that has it. -/
theorem WellFormed.hasPool (hs : s.WellFormed) {a : Address} (ha : a ∈ s.addresses) :
    s.HasPool a.id.group := by
  obtain ⟨account, hacc, hwallet, hindex, -⟩ := hs.address_owner a ha
  exact ⟨hs.address_kind a ha, account, hacc, hwallet, hindex⟩

theorem WellFormed.pool_eq_nil (hs : s.WellFormed) (h : ¬ s.HasPool g) : s.pool g = [] := by
  refine List.filter_eq_nil_iff.2 fun a ha hg => h ?_
  rw [← beq_iff_eq.1 hg]
  exact hs.hasPool ha

theorem nextUnused_eq_zero (h : s.pool g = []) : s.nextUnused g = 0 := by
  rw [nextUnused, h]
  rfl

/-! ## Extending pools -/

theorem pool_append (s : Store) (created : List Address) (g : AddressGroup) :
    ({ s with addresses := s.addresses ++ created } : Store).pool g =
      s.pool g ++ created.filter (·.id.group == g) := by
  simp only [pool, List.filter_append]

/-- Addresses without rows leave the next unused indexes as they are. -/
theorem nextUnused_append (hfresh : ∀ a ∈ created, s.isUsed a.id = false)
    (heq : s' = { s with addresses := s.addresses ++ created }) (g : AddressGroup) :
    s'.nextUnused g = s.nextUnused g := by
  have hnil : (created.filter (·.id.group == g)).filter (fun a => s.isUsed a.id) = [] := by
    refine List.filter_eq_nil_iff.2 fun a ha => ?_
    rw [hfresh a (List.mem_filter.1 ha).1]
    exact Bool.false_ne_true
  rw [heq]
  show ((Store.pool _ g).filter fun a => s.isUsed a.id).foldl _ 0 = _
  rw [pool_append, List.filter_append, hnil, List.append_nil]
  rfl

/-- New addresses have no rows. -/
theorem WellFormed.isUsed_created (hs : s.WellFormed) (hs' : s'.WellFormed)
    (heq : s' = { s with addresses := s.addresses ++ created }) :
    ∀ a ∈ created, s.isUsed a.id = false := by
  have hnodup := hs'.address_ids
  rw [heq, List.map_append, List.nodup_append] at hnodup
  -- a used address has a row, and rows refer to addresses that exist
  intro a ha
  by_contra hused
  obtain ⟨k, hk, hid⟩ := isUsed_iff.1 (by simpa using hused)
  obtain ⟨r, hr, rfl⟩ := List.mem_map.1 hk
  obtain ⟨b, hb, hbid, -⟩ := hs.row_address r hr
  have hmem : b.id ∈ s.addresses.map (·.id) := List.mem_map_of_mem hb
  exact hnodup.2.2 _ hmem _ (List.mem_map_of_mem ha) (hbid.trans hid)

theorem group_of_mem_extendPools {gs : List AddressGroup}
    (h : extendPools buffer gs s = .ok (created, s')) : ∀ a ∈ created, a.id.group ∈ gs := by
  induction gs generalizing s created with
  | nil =>
    cases h
    intro a ha
    cases ha
  | cons g gs ih =>
    unfold extendPools at h
    obtain ⟨⟨first, m⟩, hfirst, h⟩ := bind_eq_ok_iff.1 h
    obtain ⟨⟨more, s₂⟩, hmore, h⟩ := bind_eq_ok_iff.1 h
    cases h
    intro a ha
    rcases List.mem_append.1 ha with ha | ha
    · rcases extendPool_cases hfirst with ⟨-, rfl, -⟩ | ⟨-, _, _, -, -, happend⟩
      · cases ha
      · rw [(new_of_appendAddresses happend a ha).1]
        exact List.mem_cons_self
    · exact List.mem_cons_of_mem _ (ih hmore a ha)

theorem pool_of_appendAddresses {key : ExtendedKey} {index count : Nat} (g' : AddressGroup)
    (h : appendAddresses key g index count s = .ok (created, s')) :
    s'.pool g' = if g' = g then s.pool g ++ created else s.pool g' := by
  have hgroup := fun a ha => (new_of_appendAddresses h a ha).1
  rw [(eq_of_appendAddresses h).1, pool_append]
  split
  · rename_i hg
    subst hg
    rw [List.filter_eq_self.2 fun a ha => beq_iff_eq.2 (hgroup a ha)]
  · rename_i hg
    rw [List.filter_eq_nil_iff.2, List.append_nil]
    intro a ha hag
    exact hg ((beq_iff_eq.1 hag).symm.trans (hgroup a ha))

theorem numbered_of_appendAddresses {key : ExtendedKey} {count : Nat} (hs : s.Numbered)
    (h : appendAddresses key g (s.poolSize g) count s = .ok (created, s')) :
    s'.Numbered ∧ ∀ g', s'.poolSize g' = if g' = g then s.poolSize g + count else s.poolSize g' := by
  obtain ⟨-, hids, hlimit⟩ := eq_of_appendAddresses h
  have hlength : created.length = count := by
    have hlen := congrArg List.length hids
    simpa using hlen
  have hsize : ∀ g', s'.poolSize g' = if g' = g then s.poolSize g + count else s.poolSize g' := by
    intro g'
    rw [poolSize, pool_of_appendAddresses g' h]
    split
    · rw [List.length_append, hlength]
      rfl
    · rfl
  refine ⟨fun g' => ?_, hsize⟩
  rw [hsize g', pool_of_appendAddresses g' h]
  split
  · rename_i hg
    subst hg
    constructor
    · rw [List.map_append, (hs g').1, hids, ← List.map_append, List.range'_eq_map_range,
        ← List.range_add]
    · rcases Nat.eq_zero_or_pos count with hzero | hpos
      · rw [hzero]
        exact (hs g').2
      · exact hlimit hpos
  · exact hs g'

/-- **Extending a pool** makes it end at least a buffer after its next unused index. -/
theorem poolSize_extendPool (hb : buffer.toNat < ExtendedKey.numberLimit) (hs : s.Numbered)
    (h : s.extendPool g buffer = .ok (created, s')) :
    s'.Numbered ∧ ∀ g', s'.poolSize g' =
      if g' = g then max (s.poolSize g) (buffer.toNat + s.nextUnused g) else s.poolSize g' := by
  have hnext := hs.nextUnused_le g
  have hunused := hs.unusedCount_eq g
  rcases extendPool_cases h with ⟨hle, rfl, rfl⟩ | ⟨hlt, _, _, -, -, happend⟩
  · refine ⟨hs, fun g' => ?_⟩
    split
    · rename_i hg
      subst hg
      omega
    · rfl
  · -- the range does not wrap around: the pool and the buffer are half the words at most
    have hlimit : ExtendedKey.numberLimit + ExtendedKey.numberLimit = UInt32.size := by decide
    have hcount : (UInt32.ofNat (buffer.toNat - s.unusedCount g)).toNat =
        buffer.toNat - s.unusedCount g := UInt32.toNat_ofNat_of_lt' (by omega)
    have hsize := (hs g).2
    rw [spanLength_eq, hs.toNat_addressCount, hcount, if_pos (by omega), hunused] at happend
    obtain ⟨hs', hsize⟩ := numbered_of_appendAddresses hs happend
    refine ⟨hs', fun g' => ?_⟩
    rw [hsize g']
    split
    · omega
    · rfl

theorem poolSize_extendPools {gs : List AddressGroup} (hb : buffer.toNat < ExtendedKey.numberLimit)
    (hwf : s.WellFormed) (hs : s.Numbered)
    (hkind : ∀ g ∈ gs, IsPoolKind g.kind ∨ ∃ b ∈ s.addresses, b.id.group = g)
    (h : extendPools buffer gs s = .ok (created, s')) :
    s'.Numbered ∧ (∀ g, s'.nextUnused g = s.nextUnused g) ∧ ∀ g, s'.poolSize g =
      if g ∈ gs then max (s.poolSize g) (buffer.toNat + s.nextUnused g) else s.poolSize g := by
  induction gs generalizing s created with
  | nil =>
    cases h
    exact ⟨hs, fun _ => rfl, fun _ => rfl⟩
  | cons g₀ gs ih =>
    unfold extendPools at h
    obtain ⟨⟨first, m⟩, hfirst, h⟩ := bind_eq_ok_iff.1 h
    obtain ⟨⟨more, s₂⟩, hmore, h⟩ := bind_eq_ok_iff.1 h
    cases h
    have hm := eq_of_extendPool hfirst
    have hwrites : Writes (fun _ => True) s m :=
      writes_extendPool (hkind g₀ List.mem_cons_self) hfirst
    have hmwf := wellFormed_of_writes hwf hwrites
    -- addresses made for one pool leave the next unused indexes of all
    have hmnext := nextUnused_append (hwf.isUsed_created hmwf hm) hm
    obtain ⟨hmnum, hmsize⟩ := poolSize_extendPool hb hs hfirst
    have hkind' : ∀ g ∈ gs, IsPoolKind g.kind ∨ ∃ b ∈ m.addresses, b.id.group = g := by
      intro g hg
      refine (hkind g (List.mem_cons_of_mem _ hg)).imp id ?_
      rintro ⟨b, hb, hgroup⟩
      rw [hm]
      exact ⟨b, List.mem_append_left _ hb, hgroup⟩
    obtain ⟨hnum, hnext, hsize⟩ := ih hmwf hmnum hkind' hmore
    refine ⟨hnum, fun g => (hnext g).trans (hmnext g), fun g => ?_⟩
    rw [hsize g, hmnext g, hmsize g]
    by_cases hg : g = g₀
    · subst hg
      simp
    · simp [hg]

/-! ## Batches -/

/-- **One round** extends the pools of the addresses that came into use, so that a pool which ended a
buffer after its next unused index does so again. -/
theorem poolSize_round {pools : List AddressGroup} {applied : List LedgerKey} {new : List Deposit}
    (hb : buffer.toNat < ExtendedKey.numberLimit) (hwf : s.WellFormed) (hs : s.Numbered)
    (hpools : ∀ a ∈ s.addresses, a.id.group ∈ pools)
    (hnew : new = s.newDeposits scope outputs applied)
    (h : extendPools buffer (s.touchedPools pools new) (recordAll new s).2 = .ok (created, t)) :
    t.Numbered ∧ ∀ g, s.nextUnused g ≤ t.nextUnused g ∧
      (buffer.toNat + s.nextUnused g ≤ s.poolSize g →
        t.poolSize g = max (s.poolSize g) (buffer.toNat + t.nextUnused g)) := by
  have hdue : ∀ d ∈ new, s.IsDue scope outputs d := by
    intro d hd
    rw [hnew] at hd
    exact (isDue_of_mem_newDeposits hd).1
  have hrwf := wellFormed_recordAll hwf hdue
  have haddr : (recordAll new s).2.addresses = s.addresses := addresses_recordAll new s
  have hkind : ∀ g ∈ s.touchedPools pools new,
      IsPoolKind g.kind ∨ ∃ b ∈ (recordAll new s).2.addresses, b.id.group = g := by
    intro g hg
    rw [haddr]
    exact .inr (group_of_mem_touchedPools hdue hg)
  obtain ⟨hnum, hnext, hsize⟩ := poolSize_extendPools hb hrwf (hs.congr haddr) hkind h
  refine ⟨hnum, fun g => ⟨?_, fun hbuf => ?_⟩⟩
  · rw [hnext g]
    refine nextUnused_mono (pool_congr haddr g) fun a _ hused => ?_
    obtain ⟨k, hk, hid⟩ := isUsed_iff.1 hused
    exact isUsed_iff.2 ⟨k, mem_keys_recordAll.2 (.inl hk), hid⟩
  · rw [hsize g, hnext g, poolSize_congr haddr]
    split
    · rfl
    · rename_i hg
      -- in an untouched pool, deposits go to addresses that have rows already
      have hle : (recordAll new s).2.nextUnused g ≤ s.nextUnused g := by
        rw [nextUnused_le_iff]
        intro a ha hused
        rw [pool_congr haddr] at ha
        refine nextUnused_le_iff.1 (Nat.le_refl _) a ha ?_
        obtain ⟨k, hk, hid⟩ := isUsed_iff.1 hused
        rcases mem_keys_recordAll.1 hk with hk | hk
        · exact isUsed_iff.2 ⟨k, hk, hid⟩
        · by_contra hunused
          obtain ⟨d, hd, rfl⟩ := List.mem_map.1 hk
          have hgroup : a.id.group = g := by simpa using (List.mem_filter.1 ha).2
          refine hg (List.mem_filter.2 ⟨hgroup ▸ hpools a (List.mem_filter.1 ha).1, ?_⟩)
          refine List.any_eq_true.2 ⟨d, hd, ?_⟩
          rw [hid, hgroup, beq_self_eq_true, Bool.true_and]
          simpa using hunused
      omega

/-- All rounds together do to the pools what one round does. -/
theorem poolSize_rounds {pools : List AddressGroup} {applied : List LedgerKey}
    {found : DepositOutcome} (hb : buffer.toNat < ExtendedKey.numberLimit) (hwf : s.WellFormed)
    (hs : s.Numbered) (hpools : ∀ a ∈ s.addresses, a.id.group ∈ pools)
    (h : Rounds scope buffer outputs pools applied s found t) :
    t.Numbered ∧ ∀ g, s.nextUnused g ≤ t.nextUnused g ∧
      (buffer.toNat + s.nextUnused g ≤ s.poolSize g →
        t.poolSize g = max (s.poolSize g) (buffer.toNat + t.nextUnused g)) := by
  induction h with
  | stop => exact ⟨hs, fun g => ⟨Nat.le_refl _, fun hbuf => by omega⟩⟩
  | last hnew hextend => exact poolSize_round hb hwf hs hpools hnew hextend
  | @round applied s m t new created rest hnew hextend grown next ih =>
    obtain ⟨hm, hround⟩ := poolSize_round hb hwf hs hpools hnew hextend
    have hmpools : ∀ a ∈ m.addresses, a.id.group ∈ pools := by
      intro a ha
      rw [(frame_round hextend).2.1] at ha
      rcases List.mem_append.1 ha with ha | ha
      · exact hpools a ha
      · exact (List.mem_filter.1 (group_of_mem_extendPools hextend a ha)).1
    obtain ⟨ht, hrest⟩ := ih (wellFormed_round hwf hnew hextend) hm hmpools
    refine ⟨ht, fun g => ?_⟩
    obtain ⟨hle, hsize⟩ := hround g
    obtain ⟨hle', hsize'⟩ := hrest g
    refine ⟨Nat.le_trans hle hle', fun hbuf => ?_⟩
    -- the pool may grow in both parts; the later next unused index decides
    have hmsize := hsize hbuf
    have htsize := hsize' (by omega)
    omega

/-- What a step with a buffer does to the sizes of the pools. -/
structure Grown (buffer : Nat) (s s' : Store) : Prop where
  numbered : s'.Numbered
  kept : ∀ g, s.HasPool g → s'.HasPool g ∧
    (buffer + s.nextUnused g ≤ s.poolSize g →
      s'.poolSize g = max (s.poolSize g) (buffer + s'.nextUnused g))
  opened : ∀ g, ¬ s.HasPool g → s'.HasPool g → s'.poolSize g = buffer ∧ s'.nextUnused g = 0

theorem hasPool_congr (hacc : s'.accounts = s.accounts) : s'.HasPool g ↔ s.HasPool g := by
  rw [HasPool, HasPool, hacc]

/-- A step that leaves accounts and addresses alone and puts no further address into use. -/
theorem Grown.of_shrunk {b : Nat} (hs : s.Numbered) (hacc : s'.accounts = s.accounts)
    (haddr : s'.addresses = s.addresses)
    (hkeys : ∀ k ∈ s'.ledger.map (·.key), k ∈ s.ledger.map (·.key)) : Grown b s s' where
  numbered := hs.congr haddr
  kept := by
    intro g hg
    refine ⟨(hasPool_congr hacc).2 hg, fun hbuf => ?_⟩
    have hle : s'.nextUnused g ≤ s.nextUnused g := by
      refine nextUnused_mono (pool_congr haddr g).symm fun a _ hused => ?_
      obtain ⟨k, hk, hid⟩ := isUsed_iff.1 hused
      exact isUsed_iff.2 ⟨k, hkeys k hk, hid⟩
    rw [poolSize_congr haddr]
    omega
  opened := by
    intro g hg hg'
    exact absurd ((hasPool_congr hacc).1 hg') hg

/-- The size of a pool stays the buffer and the peak of its use. -/
theorem Grown.poolSize_eq {b peak : Nat} (h : Grown b s s') (hwf' : s'.WellFormed)
    (hle : s.nextUnused g ≤ peak) (hsize : s.HasPool g → s.poolSize g = b + peak)
    (hzero : ¬ s.HasPool g → peak = 0) :
    (s'.HasPool g → s'.poolSize g = b + max (s'.nextUnused g) peak) ∧
      (¬ s'.HasPool g → max (s'.nextUnused g) peak = 0) := by
  by_cases hg : s.HasPool g
  · have hsize' := hsize hg
    obtain ⟨hg', hkept⟩ := h.kept g hg
    have hnew := hkept (by omega)
    refine ⟨fun _ => ?_, fun hnot => absurd hg' hnot⟩
    omega
  · rw [hzero hg]
    refine ⟨fun hg' => ?_, fun hnot => ?_⟩
    · obtain ⟨hsize', hnext⟩ := h.opened g hg hg'
      rw [hsize', hnext]
      rfl
    · -- no pool, no addresses
      rw [nextUnused_eq_zero (hwf'.pool_eq_nil hnot)]
      rfl

theorem group_mem_pools {a : Address} (ha : a ∈ s.addresses) : a.id.group ∈ s.pools := by
  unfold pools
  rw [Sorting.mem_sortBy, List.mem_eraseDups]
  exact List.mem_map.2 ⟨a, ha, rfl⟩

theorem grown_of_account {opened : Store} {account : Account}
    (hb : buffer.toNat < ExtendedKey.numberLimit) (hwf : s.WellFormed) (hs : s.Numbered)
    (howner : ∃ w ∈ s.wallets, w.id = account.wallet) (hinsert : s.insertAccount account = .ok opened)
    (h : extendPools buffer
      [⟨account.wallet, account.index, receivingKind⟩, ⟨account.wallet, account.index, changeKind⟩]
      opened = .ok (created, s')) : Grown buffer.toNat s s' := by
  have howf := wellFormed_insertAccount hwf howner hinsert
  have hopened := eq_of_insertAccount hinsert
  have hkind : ∀ g ∈ ([⟨account.wallet, account.index, receivingKind⟩,
      ⟨account.wallet, account.index, changeKind⟩] : List AddressGroup),
      IsPoolKind g.kind ∨ ∃ b ∈ opened.addresses, b.id.group = g := by
    intro g hg
    rcases List.mem_cons.1 hg with rfl | hg
    · exact .inl (.inl rfl)
    · rw [List.mem_singleton.1 hg]
      exact .inl (.inr rfl)
  have haddr : opened.addresses = s.addresses := by rw [hopened]
  obtain ⟨hnum, hnext, hsize⟩ := poolSize_extendPools hb howf (hs.congr haddr) hkind h
  have hnext' : ∀ g, s'.nextUnused g = s.nextUnused g := by
    intro g
    rw [hnext g]
    exact nextUnused_congr haddr (by rw [hopened]) g
  have hacc : s'.accounts = s.accounts ++ [account] := by rw [eq_of_extendPools h, hopened]
  refine ⟨hnum, fun g hg => ?_, fun g hg hg' => ?_⟩
  · obtain ⟨hk, a, ha, hwallet, hindex⟩ := hg
    refine ⟨⟨hk, a, hacc ▸ List.mem_append_left _ ha, hwallet, hindex⟩, fun hbuf => ?_⟩
    rw [hsize g, hnext' g, poolSize_congr haddr, ← hnext g, hnext' g]
    split <;> omega
  · -- the pool belongs to the new account
    obtain ⟨hk, a, ha, hwallet, hindex⟩ := hg'
    rw [hacc] at ha
    rcases List.mem_append.1 ha with ha | ha
    · exact absurd ⟨hk, a, ha, hwallet, hindex⟩ hg
    · rw [List.mem_singleton.1 ha] at hwallet hindex
      have hmem : g ∈ ([⟨account.wallet, account.index, receivingKind⟩,
          ⟨account.wallet, account.index, changeKind⟩] : List AddressGroup) := by
        obtain ⟨wallet, index, kind⟩ := g
        rcases hk with hk | hk <;> simp_all
      have hnil := hwf.pool_eq_nil hg
      have hzero := nextUnused_eq_zero hnil
      refine ⟨?_, (hnext' g).trans hzero⟩
      rw [hsize g, if_pos hmem, poolSize_congr haddr, ← hnext g, hnext' g, hzero, poolSize, hnil]
      exact Nat.zero_max _

theorem grown_of_batch {config : Config} {batch : Batch} {header : Option BatchHeader}
    {chain : ChainView} {outcome : BatchOutcome}
    (hb : config.topUpBuffer.toNat < ExtendedKey.numberLimit) (hwf : s.WellFormed) (hs : s.Numbered)
    (h : s.applyBatch config batch header chain = .ok (outcome, s')) :
    Grown config.topUpBuffer.toNat s s' := by
  obtain ⟨found, t, names, hrounds, hmoved⟩ := parts_of_applyBatch h
  obtain ⟨ht, hsize⟩ := poolSize_rounds hb hwf hs (fun a => group_mem_pools) hrounds
  obtain ⟨hacc, haddr, hpairs⟩ := frame_moved hmoved
  have hkeys : s'.ledger.map (·.key) = t.ledger.map (·.key) := by
    have hfst := congrArg (List.map Prod.fst) hpairs
    rw [List.map_map, List.map_map] at hfst
    exact hfst
  have haccounts : s'.accounts = s.accounts := hacc.trans (frame_rounds hrounds).2.2
  refine ⟨ht.congr haddr, fun g hg => ⟨(hasPool_congr haccounts).2 hg, fun hbuf => ?_⟩, ?_⟩
  · rw [poolSize_congr haddr, nextUnused_congr haddr hkeys]
    exact (hsize g).2 hbuf
  · intro g hg hg'
    exact absurd ((hasPool_congr haccounts).1 hg') hg

/-- **A step keeps the pools topped up.** -/
theorem grown_of_step {config : Config}
    (hb : config.topUpBuffer.toNat < ExtendedKey.numberLimit) (hwf : s.WellFormed) (hs : s.Numbered)
    (h : Step config staged s s') : Grown config.topUpBuffer.toNat s s' := by
  cases h with
  | kept => exact .of_shrunk hs rfl rfl fun k hk => hk
  | wallet build insert =>
    rw [eq_of_insertWallet insert]
    exact .of_shrunk hs rfl rfl fun k hk => hk
  | account owner insert extend => exact grown_of_account hb hwf hs owner insert extend
  | batch admitted apply => exact grown_of_batch hb hwf hs apply
  | undone held above build =>
    refine .of_shrunk hs rfl rfl fun k hk => ?_
    simp only [setTip, undoAbove, keys_clear] at hk
    exact (List.filter_sublist.map _).subset hk
  | dropped held =>
    refine .of_shrunk hs rfl rfl fun k hk => ?_
    simp only [dropUnconfirmed, keys_clear] at hk
    exact (List.filter_sublist.map _).subset hk

/-! ## Queries -/

theorem Numbered.poolList_eq (hs : s.Numbered) (g : AddressGroup) : s.poolList g = s.pool g := by
  unfold poolList
  rw [Sorting.sortBy_eq_insertionSort]
  refine List.Pairwise.insertionSort_eq ?_
  have hrange : ((s.pool g).map (·.id.index.toNat)).Pairwise (· < ·) := by
    rw [hs.index g]
    exact List.pairwise_lt_range
  refine (List.pairwise_map.1 hrange).imp fun {a b} hlt => ?_
  have hle : (compare a.id.index b.id.index).isLE = true := by
    rw [Std.isLE_compare, UInt32.le_iff_toNat_le]
    omega
  exact hle

theorem filter_le_range {n m : Nat} (hm : m ≤ n) :
    (List.range n).filter (fun i => decide (m ≤ i)) = List.range' m (n - m) := by
  obtain ⟨k, rfl⟩ := Nat.exists_eq_add_of_le hm
  rw [List.range_add, List.filter_append, List.filter_eq_nil_iff.2, List.nil_append,
    List.filter_eq_self.2, Nat.add_sub_cancel_left, List.range'_eq_map_range]
  · intro i hi
    obtain ⟨j, -, rfl⟩ := List.mem_map.1 hi
    simp
  · intro i hi
    have hlt := List.mem_range.1 hi
    simpa using hlt

/-- The unused addresses are consecutive, from the next unused index on. -/
theorem Numbered.index_unusedAddresses (hs : s.Numbered) (g : AddressGroup) (count : Nat) :
    (s.unusedAddresses g count).map (·.id.index.toNat) =
      List.range' (s.nextUnused g) (min count (s.poolSize g - s.nextUnused g)) := by
  have hnext := hs.nextUnused_le g
  unfold unusedAddresses
  rw [hs.poolList_eq, List.map_take]
  have hmap : ((s.pool g).filter fun a => decide (s.nextUnused g ≤ a.id.index.toNat)).map
      (·.id.index.toNat) =
        ((s.pool g).map (·.id.index.toNat)).filter fun i => decide (s.nextUnused g ≤ i) := by
    rw [List.filter_map]
    rfl
  rw [hmap, hs.index g, filter_le_range hnext]
  rcases Nat.le_total count (s.poolSize g - s.nextUnused g) with hle | hle
  · rw [Nat.min_eq_left hle, List.take_range'_of_length_ge hle]
  · rw [Nat.min_eq_right hle, List.take_range'_of_length_le hle]

theorem mem_unusedAddresses {a : Address} {count : Nat} (h : a ∈ s.unusedAddresses g count) :
    a ∈ s.poolList g ∧ s.nextUnused g ≤ a.id.index.toNat := by
  obtain ⟨ha, hle⟩ := List.mem_filter.1 (List.mem_of_mem_take h)
  exact ⟨ha, of_decide_eq_true hle⟩

/-- An address without rows has no entries. -/
theorem addressEntries_of_isUsed {id : AddressId} (h : s.isUsed id = false) :
    s.addressEntries id = .ok [] := by
  have hnil : s.ledger.filter (fun r => r.key.address == id) = [] := by
    refine List.filter_eq_nil_iff.2 fun r hr hid => ?_
    have hused : s.isUsed id = true := List.any_eq_true.2 ⟨r, hr, hid⟩
    rw [h] at hused
    cases hused
  unfold addressEntries entries
  rw [hnil]
  rfl

end Store

namespace Indexer

open Store

variable {calls : List Call} {past : List Indexer} {ix : Indexer} {buffer : UInt64}

/-- The highest next unused index that a pool has had. -/
def peakUnused (states : List Indexer) (network : Network) (g : AddressGroup) : Nat :=
  (states.map fun ix => (ix.storeOf network).nextUnused g).foldr max 0

theorem config_of_history (hist : History calls (ix :: past))
    (hopen : ∀ network config, Call.reopen network config ∈ calls → config.topUpBuffer = buffer) :
    ix.config.topUpBuffer = buffer := by
  generalize hstates : ix :: past = states at hist
  induction hist generalizing ix past with
  | opened network config =>
    cases hstates
    exact hopen network config List.mem_cons_self
  | @called calls before i i' call hist answer ih =>
    cases hstates
    have hi := ih (fun n c hc => hopen n c (List.mem_cons_of_mem _ hc)) rfl
    rcases @perform_cases (fun _ => True) _ _ _ (fun _ _ => trivial) answer with ⟨network, config, rfl, rfl⟩ | ⟨-, -, hconfig, -⟩
    · exact hopen network config List.mem_cons_self
    · rw [hconfig, hi]

/-- **The size of a pool** is the buffer and the peak of its use, at every moment of a history under
one buffer. -/
theorem History.poolSize_eq (hist : History calls (ix :: past))
    (hb : buffer.toNat < ExtendedKey.numberLimit)
    (hopen : ∀ network config, Call.reopen network config ∈ calls → config.topUpBuffer = buffer)
    (network : Network) :
    (ix.storeOf network).Numbered ∧ ∀ g,
      ((ix.storeOf network).HasPool g →
        (ix.storeOf network).poolSize g = buffer.toNat + peakUnused (ix :: past) network g) ∧
      (¬ (ix.storeOf network).HasPool g → peakUnused (ix :: past) network g = 0) := by
  generalize hstates : ix :: past = states at hist
  induction hist generalizing ix past with
  | opened n config =>
    cases hstates
    have hempty : (fresh n config).storeOf network = Store.empty := by
      unfold storeOf
      split <;> rfl
    rw [hempty]
    refine ⟨fun g => ⟨rfl, Nat.zero_le _⟩, fun g => ⟨?_, fun _ => ?_⟩⟩
    · rintro ⟨-, account, hmem, -⟩
      cases hmem
    · unfold peakUnused
      rw [List.map_singleton, hempty]
      rfl
  | @called calls before i ix call hist answer ih =>
    cases hstates
    have hopen' : ∀ network config, Call.reopen network config ∈ calls →
        config.topUpBuffer = buffer := fun n c hc => hopen n c (List.mem_cons_of_mem _ hc)
    obtain ⟨hnum, hsize⟩ := ih hopen' rfl
    have hconfig := config_of_history hist hopen'
    have hwf := wellFormed_of_history hist i List.mem_cons_self network
    have hpeak : ∀ g, peakUnused (ix :: i :: before) network g =
        max ((ix.storeOf network).nextUnused g) (peakUnused (i :: before) network g) :=
      fun _ => rfl
    have hle : ∀ g, (i.storeOf network).nextUnused g ≤ peakUnused (i :: before) network g :=
      fun _ => Nat.le_max_left _ _
    rcases @storeOf_perform (fun _ => True) _ _ _ (fun _ _ => trivial) answer network with heq | ⟨heq, heq', hstep⟩
    · -- another network was open: its peak stays
      rw [heq]
      refine ⟨hnum, fun g => ?_⟩
      rw [hpeak g, heq, Nat.max_eq_right (hle g)]
      exact hsize g
    · rw [heq] at hnum hsize hle hwf
      have hgrown := grown_of_step (hconfig ▸ hb) hwf hnum hstep
      rw [hconfig] at hgrown
      rw [heq']
      refine ⟨hgrown.numbered, fun g => ?_⟩
      rw [hpeak g, heq']
      have hwf' := wellFormed_of_change hwf (change_of_step hstep)
      exact hgrown.poolSize_eq hwf' (hle g) (hsize g).1 (hsize g).2

/-- **The pools of an account are topped up**, in every state of a history under one buffer. -/
theorem pools_topped_up (hist : History calls (ix :: past))
    (hb : buffer.toNat < ExtendedKey.numberLimit)
    (hopen : ∀ network config, Call.reopen network config ∈ calls → config.topUpBuffer = buffer)
    {account : Account} (hacc : account ∈ ix.store.accounts) {kind : UInt32}
    (hkind : IsPoolKind kind) :
    let g : AddressGroup := ⟨account.wallet, account.index, kind⟩
    let size := ix.store.poolSize g
    let next := ix.store.nextUnused g
    (ix.store.poolList g).map (·.id.index.toNat) = List.range size ∧
    (∀ a ∈ ix.store.poolList g, a.id.group = g ∧ account.derive kind a.id.index = .ok a.scripts) ∧
    size = buffer.toNat + peakUnused (ix :: past) ix.network g ∧
    next + buffer.toNat ≤ size ∧
    ∀ count,
      (ix.store.unusedAddresses g count).map (·.id.index.toNat) =
        List.range' next (min count (size - next)) ∧
      ∀ a ∈ ix.store.unusedAddresses g count,
        a ∈ ix.store.poolList g ∧ ix.store.addressEntries a.id = .ok [] := by
  intro g size next
  obtain ⟨hnum, hsizes⟩ := hist.poolSize_eq hb hopen ix.network
  have hwf := wellFormed_of_history hist ix List.mem_cons_self ix.network
  rw [storeOf_network] at hnum hsizes hwf
  have hsize := (hsizes g).1 ⟨hkind, account, hacc, rfl, rfl⟩
  have hpeak : next ≤ peakUnused (ix :: past) ix.network g := by
    have hle : (ix.storeOf ix.network).nextUnused g ≤ peakUnused (ix :: past) ix.network g :=
      Nat.le_max_left _ _
    rw [storeOf_network] at hle
    exact hle
  refine ⟨?_, ?_, hsize, by omega, fun count => ⟨hnum.index_unusedAddresses g count, ?_⟩⟩
  · rw [hnum.poolList_eq]
    exact hnum.index g
  · intro a ha
    rw [hnum.poolList_eq] at ha
    obtain ⟨ha, hgroup⟩ := List.mem_filter.1 ha
    have hgroup' : a.id.group = g := beq_iff_eq.1 hgroup
    obtain ⟨owner, howner, hwallet, hindex, hderive⟩ := hwf.address_owner a ha
    rw [hgroup'] at hwallet hindex hderive
    -- accounts have unique keys, so the owner is the account
    have hsame : owner = account :=
      List.inj_on_of_nodup_map hwf.account_keys howner hacc (Prod.ext hwallet hindex)
    rw [hsame] at hderive
    exact ⟨hgroup', hderive⟩
  · intro a ha
    obtain ⟨hmem, hle⟩ := mem_unusedAddresses ha
    refine ⟨hmem, addressEntries_of_isUsed ?_⟩
    rw [hnum.poolList_eq] at hmem
    exact isUsed_of_nextUnused_le hmem hle

/-- After a cascade that used two addresses, a buffer of one is left behind them. -/
theorem pools_topped_up_cascade : ∃ calls past ix, History calls (ix :: past) ∧
    (∀ network config, Call.reopen network config ∈ calls →
      config.topUpBuffer = Sample.config.topUpBuffer) ∧
    ix.store = Sample.deposited ∧
    (ix.store.poolList ⟨1, 0, 0⟩).map (·.id.index.toNat) = [0, 1, 2] ∧
    peakUnused (ix :: past) ix.network ⟨1, 0, 0⟩ = 2 ∧
    (ix.store.unusedAddresses ⟨1, 0, 0⟩ 5).map (·.id.index.toNat) = [2] := by
  obtain ⟨past, hist, -⟩ := Sample.history Sample.config
  obtain ⟨ix, hperform, hstore⟩ := map_eq_ok_iff.1 Sample.perform_cascade
  have hist' := hist.called hperform
  have hopen : ∀ network config,
      Call.reopen network config ∈ Call.processBatch Sample.cascade none (fun _ => none) ::
        Sample.calls Sample.config → config.topUpBuffer = Sample.config.topUpBuffer := by
    intro network config hmem
    simp only [Sample.calls, List.mem_cons, reduceCtorEq, Call.reopen.injEq, List.not_mem_nil,
      or_false, false_or] at hmem
    rcases hmem with ⟨-, rfl⟩ | ⟨-, rfl⟩ | ⟨-, rfl⟩ <;> rfl
  have hacc : Sample.account ∈ ix.store.accounts := hstore ▸ List.mem_cons_self
  obtain ⟨hindex, -, hsize, -, hunused⟩ := pools_topped_up hist' (by decide) hopen hacc (.inl rfl)
  have hpool : ix.store.poolSize ⟨1, 0, 0⟩ = 3 := by
    rw [hstore]
    decide
  have hnext : ix.store.nextUnused ⟨1, 0, 0⟩ = 2 := by
    rw [hstore]
    decide
  refine ⟨_, _, ix, hist', hopen, hstore, ?_, ?_, ?_⟩
  · exact hindex.trans (congrArg List.range hpool)
  · have hpeak : ix.store.poolSize ⟨1, 0, 0⟩ = 1 + peakUnused _ _ ⟨1, 0, 0⟩ := hsize
    omega
  · have hindex' : (ix.store.unusedAddresses ⟨1, 0, 0⟩ 5).map (·.id.index.toNat) =
        List.range' (ix.store.nextUnused ⟨1, 0, 0⟩)
          (min 5 (ix.store.poolSize ⟨1, 0, 0⟩ - ix.store.nextUnused ⟨1, 0, 0⟩)) := (hunused 5).1
    rw [hindex', hpool, hnext]
    rfl

end Indexer

end WalletLedger
