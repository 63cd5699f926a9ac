import WalletLedger.Proofs.TopUp

/-!
# Matching deposits as a closure

The rounds of a batch add rows and addresses until every output that pays an address in scope has its
row and every pool that came into further use is topped up. What they end with is the least store of
this kind. So it depends on the outputs alone: not on their order, and not on whether they came at
once or in parts.

* `Store.Closed`: what the rounds of a batch establish.
* `Store.Reaches`: the least closed store, reached by the rounds of a batch (`Store.reaches_of_batch`).
* `Store.Reaches.le`: there is one least closed store.
* `Store.Reaches.trans`: closing in two parts is closing once.
-/

namespace WalletLedger

/-- Every output in `u` is paid like one in `o`, seen at another time or in another block. -/
def Covers (o u : List StagedOutput) : Prop :=
  ∀ x ∈ u, ∃ y ∈ o, y.script = x.script ∧ y.redeem = x.redeem ∧ y.outpoint = x.outpoint

namespace Store

variable {s m t t' : Store} {scope : Scope} {buffer : UInt64} {outputs u v o : List StagedOutput}
variable {part : Int → Bool} {b : Nat} {g : AddressGroup} {created : List Address}

/-- A store as calls build it. -/
structure Built (s : Store) : Prop where
  wellFormed : s.WellFormed
  numbered : s.Numbered

/-- The addresses and the ledger keys of a store are among those of another. -/
structure Within (s t : Store) : Prop where
  addresses : ∀ a ∈ s.addresses, a ∈ t.addresses
  keys : ∀ k ∈ s.ledger.map (·.key), k ∈ t.ledger.map (·.key)

/-- Every output that pays an address of a wallet taking part has its row. -/
def Matches (part : Int → Bool) (outputs : List StagedOutput) (t : Store) : Prop :=
  ∀ a ∈ t.addresses, part a.id.group.wallet = true → ∀ o ∈ outputs,
    a.scripts.toKeyHash = o.script → (Deposit.ofOutput a.id o).key ∈ t.ledger.map (·.key)

/-- A pool with an address that came into use ends a buffer after its last used one. -/
def ToppedUp (b : Nat) (s t : Store) : Prop :=
  ∀ g, (∃ a ∈ t.pool g, t.isUsed a.id = true ∧ s.isUsed a.id = false) →
    b + t.nextUnused g ≤ t.poolSize g

/-- Nothing is left to match or to extend after `s` has become `t`. -/
structure Closed (part : Int → Bool) (b : Nat) (outputs : List StagedOutput) (s t : Store) : Prop where
  matched : t.Matches part outputs
  toppedUp : ToppedUp b s t

/-- The least closed store that holds `s`. -/
structure Reaches (part : Int → Bool) (b : Nat) (outputs : List StagedOutput) (s t : Store) :
    Prop where
  built : t.Built
  accounts : t.accounts = s.accounts
  within : s.Within t
  closed : Closed part b outputs s t
  least : ∀ t' : Store, t'.Built → t'.accounts = s.accounts → s.Within t' →
    Closed part b outputs s t' → t.Within t'

theorem Within.refl (s : Store) : s.Within s where
  addresses := by intro a ha; exact ha
  keys := by intro k hk; exact hk

theorem Within.trans (h : s.Within m) (h' : m.Within t) : s.Within t where
  addresses := by intro a ha; exact h'.addresses a (h.addresses a ha)
  keys := by intro k hk; exact h'.keys k (h.keys k hk)

theorem Within.isUsed (h : s.Within t) {id : AddressId} (hused : s.isUsed id = true) :
    t.isUsed id = true := by
  obtain ⟨k, hk, hid⟩ := isUsed_iff.1 hused
  exact isUsed_iff.2 ⟨k, h.keys k hk, hid⟩

theorem Within.mem_pool (h : s.Within t) {a : Address} (ha : a ∈ s.pool g) : a ∈ t.pool g := by
  obtain ⟨ha, hg⟩ := List.mem_filter.1 ha
  exact List.mem_filter.2 ⟨h.addresses a ha, hg⟩

theorem Within.nextUnused_le (h : s.Within t) (g : AddressGroup) :
    s.nextUnused g ≤ t.nextUnused g := by
  rw [nextUnused_le_iff]
  intro a ha hused
  exact nextUnused_le_iff.1 (Nat.le_refl _) a (h.mem_pool ha) (h.isUsed hused)

/-- A used address is in its pool. -/
theorem WellFormed.mem_pool_of_isUsed (hs : s.WellFormed) {id : AddressId}
    (hused : s.isUsed id = true) : ∃ a ∈ s.pool id.group, a.id = id := by
  obtain ⟨k, hk, rfl⟩ := isUsed_iff.1 hused
  obtain ⟨r, hr, rfl⟩ := List.mem_map.1 hk
  obtain ⟨a, ha, hid, -⟩ := hs.row_address r hr
  exact ⟨a, List.mem_filter.2 ⟨ha, by rw [hid, beq_self_eq_true]⟩, hid⟩

/-- A pool has an address at every index below its size, and at no other. -/
theorem Numbered.exists_mem_pool (hs : s.Numbered) (id : AddressId) :
    (∃ a ∈ s.pool id.group, a.id = id) ↔ id.index.toNat < s.poolSize id.group := by
  constructor
  · rintro ⟨a, ha, hid⟩
    rw [← hid]
    exact index_lt_poolSize (hs.index _) (hid ▸ ha)
  · exact Store.exists_mem_pool (hs.index id.group) rfl

theorem Within.poolSize_le (h : s.Within t) (hs : s.Numbered) (ht : t.Numbered) (g : AddressGroup) :
    s.poolSize g ≤ t.poolSize g := by
  by_contra hlt
  have hlimit := (hs g).2
  have hsize : ExtendedKey.numberLimit < UInt32.size := by decide
  have hindex : (UInt32.ofNat (t.poolSize g)).toNat = t.poolSize g :=
    UInt32.toNat_ofNat_of_lt' (by omega)
  -- the address that follows the last one of the larger pool is in the smaller one
  obtain ⟨a, ha, hid⟩ := (hs.exists_mem_pool ⟨g, UInt32.ofNat (t.poolSize g)⟩).2
    (by simp only [hindex]; omega)
  have hlt' := (ht.exists_mem_pool ⟨g, _⟩).1 ⟨a, h.mem_pool ha, hid⟩
  simp only [hindex] at hlt'
  omega

/-- Two stores derive the same scripts for an address, if their accounts are the same. -/
theorem Built.mem_of_poolSize_le (hs : s.Built) (ht : t.Built) (hacc : t.accounts = s.accounts)
    (hsize : ∀ g, s.poolSize g ≤ t.poolSize g) : ∀ a ∈ s.addresses, a ∈ t.addresses := by
  intro a ha
  have hmem : a ∈ s.pool a.id.group := List.mem_filter.2 ⟨ha, beq_self_eq_true _⟩
  have hlt := (hs.numbered.exists_mem_pool a.id).1 ⟨a, hmem, rfl⟩
  obtain ⟨a', ha', hid⟩ := (ht.numbered.exists_mem_pool a.id).2 (Nat.lt_of_lt_of_le hlt (hsize _))
  obtain ⟨ha', -⟩ := List.mem_filter.1 ha'
  obtain ⟨account, haccount, hwallet, hindex, hderive⟩ := hs.wellFormed.address_owner a ha
  obtain ⟨account', haccount', hwallet', hindex', hderive'⟩ := ht.wellFormed.address_owner a' ha'
  rw [hid] at hwallet' hindex' hderive'
  rw [hacc] at haccount'
  have hsame : account = account' := by
    refine List.inj_on_of_nodup_map hs.wellFormed.account_keys haccount haccount' ?_
    rw [hwallet, hindex, hwallet', hindex']
  rw [hsame, hderive'] at hderive
  have heq : a' = a := by
    obtain ⟨id, scripts⟩ := a
    obtain ⟨id', scripts'⟩ := a'
    cases hid
    cases hderive
    rfl
  exact heq ▸ ha'

/-! ## Pools on the way -/

/-- What came into use in two parts is topped up at the end. -/
theorem ToppedUp.trans (h : ToppedUp b s m) (h' : ToppedUp b m t) (hm : m.Built) (ht : t.Built)
    (hwithin : m.Within t) : ToppedUp b s t := by
  rintro g ⟨a, ha, hused, hfresh⟩
  by_cases hlate : ∃ a ∈ t.pool g, t.isUsed a.id = true ∧ m.isUsed a.id = false
  · exact h' g hlate
  · -- all use of the pool was there in the middle
    have hearly : ∀ c ∈ t.pool g, t.isUsed c.id = true →
        ∃ c' ∈ m.pool g, c'.id = c.id ∧ m.isUsed c.id = true := by
      intro c hc hcused
      have hmused : m.isUsed c.id = true := by
        by_contra hnot
        exact hlate ⟨c, hc, hcused, by simpa using hnot⟩
      obtain ⟨c', hc', hid⟩ := hm.wellFormed.mem_pool_of_isUsed hmused
      rw [beq_iff_eq.1 (List.mem_filter.1 hc).2] at hc'
      exact ⟨c', hc', hid, hmused⟩
    obtain ⟨a', ha', hid, hmused⟩ := hearly a ha hused
    have htop := h g ⟨a', ha', by rw [hid]; exact hmused, by rw [hid]; exact hfresh⟩
    have hnext : t.nextUnused g ≤ m.nextUnused g := by
      rw [nextUnused_le_iff]
      intro c hc hcused
      obtain ⟨c', hc', hid', hmc⟩ := hearly c hc hcused
      rw [← hid'] at hmc ⊢
      exact nextUnused_le_iff.1 (Nat.le_refl _) c' hc' hmc
    have hsize := hwithin.poolSize_le hm.numbered ht.numbered g
    omega

/-- What one round does to the pools: those in which an address came into use are topped up, all
others keep their size. -/
theorem pools_round {pools : List AddressGroup} {applied : List LedgerKey} {new : List Deposit}
    (hb : buffer.toNat < ExtendedKey.numberLimit) (hs : s.Built)
    (hnew : new = s.newDeposits scope outputs applied)
    (h : extendPools buffer (s.touchedPools pools new) (recordAll new s).2 = .ok (created, t)) :
    t.Built ∧ s.Within t ∧ ∀ g, t.poolSize g =
      if g ∈ s.touchedPools pools new then max (s.poolSize g) (buffer.toNat + t.nextUnused g)
      else s.poolSize g := by
  have hdue : ∀ d ∈ new, s.IsDue scope outputs d := by
    intro d hd
    rw [hnew] at hd
    exact (isDue_of_mem_newDeposits hd).1
  have haddr : (recordAll new s).2.addresses = s.addresses := addresses_recordAll new s
  have hkind : ∀ g ∈ s.touchedPools pools new,
      IsPoolKind g.kind ∨ ∃ b ∈ (recordAll new s).2.addresses, b.id.group = g := by
    intro g hg
    rw [haddr]
    exact .inr (group_of_mem_touchedPools hdue hg)
  obtain ⟨hnum, hnext, hsize⟩ := poolSize_extendPools hb (wellFormed_recordAll hs.wellFormed hdue)
    (hs.numbered.congr haddr) hkind h
  obtain ⟨-, haddresses, hledger, -⟩ := frame_round h
  refine ⟨⟨wellFormed_round hs.wellFormed hnew h, hnum⟩, ⟨fun a ha => ?_, fun k hk => ?_⟩, fun g => ?_⟩
  · rw [haddresses]
    exact List.mem_append_left _ ha
  · rw [hledger, mem_keys_recordAll]
    exact .inl hk
  · rw [hsize g, hnext g, poolSize_congr haddr]

/-- A pool is touched if an address of it came into use. -/
theorem mem_touchedPools_of_isUsed {pools : List AddressGroup} {applied : List LedgerKey}
    {new : List Deposit} (hpools : ∀ a ∈ s.addresses, a.id.group ∈ pools)
    (hnew : new = s.newDeposits scope outputs applied)
    (h : extendPools buffer (s.touchedPools pools new) (recordAll new s).2 = .ok (created, t))
    {id : AddressId} (hused : t.isUsed id = true) (hfresh : s.isUsed id = false) :
    id.group ∈ s.touchedPools pools new := by
  obtain ⟨-, -, hledger, -⟩ := frame_round h
  obtain ⟨k, hk, rfl⟩ := isUsed_iff.1 hused
  rw [hledger] at hk
  rcases mem_keys_recordAll.1 hk with hk | hk
  · rw [isUsed_iff.2 ⟨k, hk, rfl⟩] at hfresh
    cases hfresh
  · obtain ⟨d, hd, rfl⟩ := List.mem_map.1 hk
    have hdue := hd
    rw [hnew] at hdue
    obtain ⟨o, -, a, ha, -, -, rfl⟩ := (isDue_of_mem_newDeposits hdue).1
    refine List.mem_filter.2 ⟨hpools a ha, List.any_eq_true.2 ⟨_, hd, ?_⟩⟩
    rw [hfresh, beq_self_eq_true]
    rfl

theorem toppedUp_round {pools : List AddressGroup} {applied : List LedgerKey} {new : List Deposit}
    (hb : buffer.toNat < ExtendedKey.numberLimit) (hs : s.Built)
    (hpools : ∀ a ∈ s.addresses, a.id.group ∈ pools)
    (hnew : new = s.newDeposits scope outputs applied)
    (h : extendPools buffer (s.touchedPools pools new) (recordAll new s).2 = .ok (created, t)) :
    ToppedUp buffer.toNat s t := by
  rintro g ⟨a, ha, hused, hfresh⟩
  have htouched := mem_touchedPools_of_isUsed hpools hnew h hused hfresh
  rw [beq_iff_eq.1 (List.mem_filter.1 ha).2] at htouched
  have hsize := (pools_round hb hs hnew h).2.2 g
  rw [if_pos htouched] at hsize
  omega

/-- **A round stays within every closed store.** -/
theorem within_round {pools : List AddressGroup} {applied : List LedgerKey} {new : List Deposit}
    (hb : buffer.toNat < ExtendedKey.numberLimit) (hm : m.Built)
    (hscope : ∀ w, m.inScope scope w = part w) (hsm : s.Within m)
    (hnew : new = m.newDeposits scope outputs applied)
    (h : extendPools buffer (m.touchedPools pools new) (recordAll new m).2 = .ok (created, t))
    (ht' : t'.Built) (hacc : t'.accounts = m.accounts) (hmt : m.Within t')
    (hclosed : Closed part buffer.toNat outputs s t') : t.Within t' := by
  obtain ⟨ht, -, hsize⟩ := pools_round hb hm hnew h
  obtain ⟨-, haddresses, hledger, -, htacc⟩ := frame_round h
  -- a deposit pays an address that the closed store has too
  have hnewkeys : ∀ d ∈ new, d.key ∈ t'.ledger.map (·.key) := by
    intro d hd
    rw [hnew] at hd
    obtain ⟨o, ho, a, ha, hscript, hcovered, rfl⟩ := (isDue_of_mem_newDeposits hd).1
    rw [hscope] at hcovered
    exact hclosed.matched a (hmt.addresses a ha) hcovered o ho hscript
  have hkeys : ∀ k ∈ t.ledger.map (·.key), k ∈ t'.ledger.map (·.key) := by
    intro k hk
    rw [hledger] at hk
    rcases mem_keys_recordAll.1 hk with hk | hk
    · exact hmt.keys k hk
    · obtain ⟨d, hd, rfl⟩ := List.mem_map.1 hk
      exact hnewkeys d hd
  refine ⟨ht.mem_of_poolSize_le ht' (hacc.trans htacc.symm) fun g => ?_, hkeys⟩
  have hle := hmt.poolSize_le hm.numbered ht'.numbered g
  rw [hsize g]
  split
  · rename_i hg
    obtain ⟨-, htouched⟩ := List.mem_filter.1 hg
    obtain ⟨d, hd, htouched⟩ := List.any_eq_true.1 htouched
    rw [Bool.and_eq_true, beq_iff_eq, Bool.not_eq_true'] at htouched
    -- the address is used in the closed store, and was not in the first one
    have hused : t'.isUsed d.key.address = true := isUsed_iff.2 ⟨d.key, hnewkeys d hd, rfl⟩
    obtain ⟨a, ha, hid⟩ := ht'.wellFormed.mem_pool_of_isUsed hused
    have hfresh : s.isUsed d.key.address = false := by
      by_contra hnot
      rw [hsm.isUsed (by simpa using hnot)] at htouched
      cases htouched.2
    rw [← hid] at hused hfresh
    have htop := hclosed.toppedUp g ⟨a, htouched.1 ▸ ha, hused, hfresh⟩
    -- and all that the round has used, the closed store has used
    have hnext : t.nextUnused g ≤ t'.nextUnused g := by
      rw [nextUnused_le_iff]
      intro c hc hcused
      obtain ⟨k, hk, hkid⟩ := isUsed_iff.1 hcused
      have hcused' : t'.isUsed c.id = true := isUsed_iff.2 ⟨k, hkeys k hk, hkid⟩
      obtain ⟨c', hc', hcid⟩ := ht'.wellFormed.mem_pool_of_isUsed hcused'
      rw [beq_iff_eq.1 (List.mem_filter.1 hc).2] at hc'
      rw [← hcid] at hcused' ⊢
      exact nextUnused_le_iff.1 (Nat.le_refl _) c' hc' hcused'
    omega
  · exact hle

/-! ## All rounds -/

theorem ToppedUp.refl (b : Nat) (s : Store) : ToppedUp b s s := by
  rintro g ⟨a, -, hused, hfresh⟩
  rw [hused] at hfresh
  cases hfresh

theorem toppedUp_rounds {pools : List AddressGroup} {applied : List LedgerKey}
    {found : DepositOutcome} (hb : buffer.toNat < ExtendedKey.numberLimit) (hs : s.Built)
    (hpools : ∀ a ∈ s.addresses, a.id.group ∈ pools)
    (h : Rounds scope buffer outputs pools applied s found t) :
    t.Built ∧ s.Within t ∧ ToppedUp buffer.toNat s t := by
  induction h with
  | stop => exact ⟨hs, .refl _, .refl _ _⟩
  | last hnew hextend =>
    obtain ⟨ht, hwithin, -⟩ := pools_round hb hs hnew hextend
    exact ⟨ht, hwithin, toppedUp_round hb hs hpools hnew hextend⟩
  | @round applied s m t new created rest hnew hextend grown next ih =>
    obtain ⟨hm, hwithin, -⟩ := pools_round hb hs hnew hextend
    have hmpools : ∀ a ∈ m.addresses, a.id.group ∈ pools := by
      intro a ha
      rw [(frame_round hextend).2.1] at ha
      rcases List.mem_append.1 ha with ha | ha
      · exact hpools a ha
      · exact (List.mem_filter.1 (group_of_mem_extendPools hextend a ha)).1
    obtain ⟨ht, hwithin', htop⟩ := ih hm hmpools
    exact ⟨ht, hwithin.trans hwithin',
      (toppedUp_round hb hs hpools hnew hextend).trans htop hm ht hwithin'⟩

theorem within_rounds {pools : List AddressGroup} {applied : List LedgerKey}
    {found : DepositOutcome} (hb : buffer.toNat < ExtendedKey.numberLimit) (hm : m.Built)
    (hscope : ∀ w, m.inScope scope w = part w) (hsm : s.Within m)
    (h : Rounds scope buffer outputs pools applied m found t) (ht' : t'.Built)
    (hacc : t'.accounts = m.accounts) (hmt : m.Within t')
    (hclosed : Closed part buffer.toNat outputs s t') : t.Within t' := by
  induction h with
  | stop => exact hmt
  | last hnew hextend => exact within_round hb hm hscope hsm hnew hextend ht' hacc hmt hclosed
  | @round applied m m' t new created rest hnew hextend grown next ih =>
    obtain ⟨hm', hwithin, -⟩ := pools_round hb hm hnew hextend
    obtain ⟨hwallets, -, -, -, hacc'⟩ := frame_round hextend
    refine ih hm' (fun w => ?_) (hsm.trans hwithin) (hacc.trans hacc'.symm) ?_
    · rw [inScope_congr hwallets, hscope]
    · exact within_round hb hm hscope hsm hnew hextend ht' hacc hmt hclosed

theorem matches_rounds {pools : List AddressGroup} {found : DepositOutcome} (hs : s.WellFormed)
    (hscope : ∀ w, s.inScope scope w = part w)
    (h : Rounds scope buffer outputs pools [] s found t) : t.Matches part outputs := by
  have hdep := deposited_of_rounds hs hs (Matched.init _) h
  intro a ha hpart o ho hscript
  have hdue : t.IsDue scope outputs (Deposit.ofOutput a.id o) := by
    refine ⟨o, ho, a, ha, hscript, ?_, rfl⟩
    rw [inScope_congr (frame_rounds h).1, hscope]
    exact hpart
  cases hconf : s.isConfirmed (Deposit.ofOutput a.id o).key with
  | true =>
    have hany := hconf
    rw [hs.isConfirmed_eq, Option.any_eq_true] at hany
    obtain ⟨r, hrow, -⟩ := hany
    rw [← hdep.kept _ (.inl hconf)] at hrow
    exact List.mem_map.2 ⟨r, mem_of_row? hrow, key_of_row? hrow⟩
  | false =>
    obtain ⟨d, -, -, hrow⟩ := hdep.recorded _ hdue hconf
    exact List.mem_map.2 ⟨_, mem_of_row? hrow, rfl⟩

/-! ## The least closed store -/

theorem Within.congr (h : s.Within t) (haddr : t'.addresses = t.addresses)
    (hkeys : t'.ledger.map (·.key) = t.ledger.map (·.key)) : s.Within t' where
  addresses := by intro a ha; rw [haddr]; exact h.addresses a ha
  keys := by intro k hk; rw [hkeys]; exact h.keys k hk

/-- Being the least closed store is a matter of addresses and keys. -/
theorem Reaches.congr (h : Reaches part b outputs s t) (ht' : t'.Built)
    (hacc : t'.accounts = t.accounts) (haddr : t'.addresses = t.addresses)
    (hkeys : t'.ledger.map (·.key) = t.ledger.map (·.key)) : Reaches part b outputs s t' where
  built := ht'
  accounts := hacc.trans h.accounts
  within := h.within.congr haddr hkeys
  closed := by
    have hused : ∀ id, t'.isUsed id = t.isUsed id := by
      intro id
      rw [Bool.eq_iff_iff, isUsed_iff, isUsed_iff, hkeys]
    refine ⟨fun a ha => ?_, fun g hg => ?_⟩
    · rw [haddr] at ha
      rw [hkeys]
      exact h.closed.matched a ha
    · rw [nextUnused_congr haddr hkeys, poolSize_congr haddr]
      simp only [pool_congr haddr, hused] at hg
      exact h.closed.toppedUp g hg
  least := by
    intro last hlast hacc' hwithin hclosed
    have hle := h.least last hlast hacc' hwithin hclosed
    refine ⟨fun a ha => hle.addresses a (haddr ▸ ha), fun k hk => hle.keys k (hkeys ▸ hk)⟩

/-- **A batch reaches the least closed store.** -/
theorem reaches_of_batch {config : Config} {batch : Batch} {header : Option BatchHeader}
    {chain : ChainView} {outcome : BatchOutcome}
    (hb : config.topUpBuffer.toNat < ExtendedKey.numberLimit) (hs : s.Built)
    (hscope : ∀ w, s.inScope (Scope.ofBatch config header) w = part w)
    (h : s.applyBatch config batch header chain = .ok (outcome, t)) :
    Reaches part config.topUpBuffer.toNat batch.outputs s t := by
  obtain ⟨found, d, names, hrounds, hmoved⟩ := parts_of_applyBatch h
  obtain ⟨hacc, haddr, hpairs⟩ := frame_moved hmoved
  have hkeys : t.ledger.map (·.key) = d.ledger.map (·.key) := by
    have hfst := congrArg (List.map Prod.fst) hpairs
    rw [List.map_map, List.map_map] at hfst
    exact hfst
  obtain ⟨hd, hwithin, htop⟩ := toppedUp_rounds hb hs (fun a => group_mem_pools) hrounds
  have hwrites : Writes (fun _ => True) s t := writes_applyBatch trivial h
  have hreach : Reaches part config.topUpBuffer.toNat batch.outputs s d :=
    { built := hd
      accounts := (frame_rounds hrounds).2.2
      within := hwithin
      closed := ⟨matches_rounds hs.wellFormed hscope hrounds, htop⟩
      least := fun last hlast hacc' hle hclosed =>
        within_rounds hb hs hscope (.refl s) hrounds hlast hacc' hle hclosed }
  exact hreach.congr ⟨wellFormed_of_writes hs.wellFormed hwrites, hd.numbered.congr haddr⟩ hacc haddr
    hkeys

/-- Without outputs nothing has to change. -/
theorem Reaches.refl (hs : s.Built) : Reaches part b [] s s where
  built := hs
  accounts := rfl
  within := .refl s
  closed := ⟨fun _ _ _ o ho => (nomatch ho), .refl b s⟩
  least := by
    intro t _ _ hle _
    exact hle

/-- **The least closed store is unique**: of two, each holds the other. -/
theorem Reaches.le (h : Reaches part b outputs s t) (h' : Reaches part b outputs s t') :
    t.Within t' :=
  h.least t' h'.built h'.accounts h'.within h'.closed

theorem Matches.of_covers (ht : t.Matches part o) (h : Covers o u) : t.Matches part u := by
  intro a ha hpart x hx hscript
  obtain ⟨y, hy, hscript', hredeem, hpoint⟩ := h x hx
  have hkey : (Deposit.ofOutput a.id y).key = (Deposit.ofOutput a.id x).key := by
    simp only [Deposit.ofOutput, hredeem, hpoint]
  exact hkey ▸ ht a ha hpart y hy (hscript.trans hscript'.symm)

/-- **Closing in two parts is closing once**, if the first part is not behind at the end. -/
theorem Reaches.trans (h : Reaches part b u s m) (h' : Reaches part b v m t) (hu : Covers o u)
    (hv : Covers o v) (hmatch : t.Matches part o) : Reaches part b o s t where
  built := h'.built
  accounts := h'.accounts.trans h.accounts
  within := h.within.trans h'.within
  closed := ⟨hmatch, h.closed.toppedUp.trans h'.closed.toppedUp h.built h'.built h'.within⟩
  least := by
    intro last hlast hacc hle hclosed
    have hmle := h.least last hlast hacc hle ⟨hclosed.matched.of_covers hu, hclosed.toppedUp⟩
    refine h'.least last hlast (hacc.trans h.accounts.symm) hmle
      ⟨hclosed.matched.of_covers hv, fun g hg => ?_⟩
    obtain ⟨a, ha, hused, hfresh⟩ := hg
    refine hclosed.toppedUp g ⟨a, ha, hused, ?_⟩
    -- what was unused in the middle was unused at the start
    by_contra hnot
    rw [h.within.isUsed (by simpa using hnot)] at hfresh
    cases hfresh

/-! ## Stores that calls build -/

/-- Whatever their number, new addresses go on where the pool ends. -/
theorem numbered_of_extendPool (hs : s.Numbered) (h : s.extendPool g buffer = .ok (created, t)) :
    t.Numbered := by
  rcases extendPool_cases h with ⟨-, -, rfl⟩ | ⟨-, _, _, -, -, happend⟩
  · exact hs
  · rw [hs.toNat_addressCount] at happend
    exact (numbered_of_appendAddresses hs happend).1

theorem numbered_of_extendPools {gs : List AddressGroup} (hs : s.Numbered)
    (h : extendPools buffer gs s = .ok (created, t)) : t.Numbered := by
  induction gs generalizing s created with
  | nil =>
    cases h
    exact hs
  | cons g gs ih =>
    unfold extendPools at h
    obtain ⟨⟨first, m⟩, hfirst, h⟩ := bind_eq_ok_iff.1 h
    obtain ⟨⟨more, last⟩, hmore, h⟩ := bind_eq_ok_iff.1 h
    cases h
    exact ih (numbered_of_extendPool hs hfirst) hmore

theorem numbered_of_rounds {pools : List AddressGroup} {applied : List LedgerKey}
    {found : DepositOutcome} (hs : s.Numbered)
    (h : Rounds scope buffer outputs pools applied s found t) : t.Numbered := by
  induction h with
  | stop => exact hs
  | @last applied s t new hnew hextend =>
    exact numbered_of_extendPools (hs.congr (addresses_recordAll new s)) hextend
  | @round applied s m t new created rest hnew hextend grown next ih =>
    exact ih (numbered_of_extendPools (hs.congr (addresses_recordAll new s)) hextend)

theorem built_of_step {config : Config} {staged : Batch → Prop} (hs : s.Built)
    (h : Step config staged s t) : t.Built := by
  refine ⟨wellFormed_of_change hs.wellFormed (change_of_step h), ?_⟩
  cases h with
  | kept => exact hs.numbered
  | wallet build insert =>
    rw [eq_of_insertWallet insert]
    exact hs.numbered.congr rfl
  | account owner insert extend =>
    refine numbered_of_extendPools (hs.numbered.congr ?_) extend
    rw [eq_of_insertAccount insert]
  | batch admitted apply =>
    obtain ⟨found, d, names, hrounds, hmoved⟩ := parts_of_applyBatch apply
    exact (numbered_of_rounds hs.numbered hrounds).congr (frame_moved hmoved).2.1
  | undone held above build => exact hs.numbered.congr rfl
  | dropped held => exact hs.numbered.congr rfl

end Store

namespace Indexer

/-- **Every store of an indexer is built so**, whatever buffers it was opened with. -/
theorem built_of_history {calls : List Call} {states : List Indexer} (hist : History calls states) :
    ∀ ix ∈ states, ∀ network, (ix.storeOf network).Built := by
  induction hist with
  | opened network config =>
    intro ix hix n
    rw [List.mem_singleton.1 hix]
    have hempty : Store.empty.Built := ⟨.empty, fun g => ⟨rfl, Nat.zero_le _⟩⟩
    unfold storeOf
    split <;> exact hempty
  | @called calls past ix ix' call before answer ih =>
    intro j hj n
    rcases List.mem_cons.1 hj with rfl | hj
    · have hix := ih ix List.mem_cons_self n
      rcases @storeOf_perform (fun _ => True) _ _ _ (fun _ _ => trivial) answer n with
        heq | ⟨heq, heq', hstep⟩
      · rw [heq]
        exact hix
      · rw [heq] at hix
        rw [heq']
        exact Store.built_of_step hix hstep
    · exact ih j hj n

end Indexer

end WalletLedger
