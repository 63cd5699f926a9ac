import WalletLedger.Store.Wallet

/-!
# Address pools

Every account has two pools of addresses, for receiving and for change. A pool is extended so that a
buffer of addresses follows the last one that has a ledger row. Addresses are counted in 32 bits, and so
are the indexes of new ones.

* `Store.spanLength_eq`: a range of indexes has as many as it should, unless its end is no word.
* `Store.eq_of_appendAddresses`: appending adds addresses of one pool and changes nothing else.
* `Store.totalRoom_extendPools_lt`: extending pools uses up room in them, since no index reaches
  `ExtendedKey.numberLimit`.
-/

namespace WalletLedger

namespace Store

variable {s s' : Store} {g : AddressGroup}

/-- The addresses of a pool. -/
def pool (s : Store) (g : AddressGroup) : List Address := s.addresses.filter (·.id.group == g)

/-- How many addresses a pool has. -/
def poolSize (s : Store) (g : AddressGroup) : Nat := (s.pool g).length

/-- Whether an address has a ledger row. -/
def isUsed (s : Store) (address : AddressId) : Bool := s.ledger.any (·.key.address == address)

/-- The index after the last used address of a pool. -/
def nextUnused (s : Store) (g : AddressGroup) : Nat :=
  ((s.pool g).filter fun a => s.isUsed a.id).foldl (fun m a => max m (a.id.index.toNat + 1)) 0

/-- Adds an address. -/
def insertAddress (s : Store) (address : Address) : Result Store :=
  if s.addresses.any (·.id == address.id) then .error (.store .address)
  else .ok { s with addresses := s.addresses ++ [address] }

/-- Derives `count` addresses of a pool from `index` on and adds them. -/
def appendAddresses (key : ExtendedKey) (g : AddressGroup) :
    Nat → Nat → Store → Result (List Address × Store)
  | _, 0, s => .ok ([], s)
  | index, count + 1, s => do
    let scripts ← Result.ofDerivation (key.derive g.kind.toNat index)
    let address : Address := ⟨⟨g, UInt32.ofNat index⟩, scripts⟩
    let s ← s.insertAddress address
    let (more, s) ← appendAddresses key g (index + 1) count s
    return (address :: more, s)

/-- The number of addresses of a pool, held in 32 bits. -/
def addressCount (s : Store) (g : AddressGroup) : UInt32 := UInt32.ofNat (s.poolSize g)

/-- How many addresses follow the last used one, by counts of 32 bits. -/
def unusedCount (s : Store) (g : AddressGroup) : Nat :=
  (s.addressCount g).toNat - (UInt32.ofNat (s.nextUnused g)).toNat

/-- How many words there are from `first` on before the sum of `first` and `count`. There are none
where the sum wraps around. -/
def spanLength (first count : UInt32) : Nat := (first + count).toNat - first.toNat

/-- Adds `count` addresses to a pool, from the index that is its number of addresses on. -/
def createAddresses (s : Store) (account : Account) (g : AddressGroup) (count : UInt32) :
    Result (List Address × Store) := do
  let key ← Result.ofDerivation (ExtendedKey.ofText account.extendedKey)
  appendAddresses key g (s.addressCount g).toNat (spanLength (s.addressCount g) count) s

/-- Extends a pool until `buffer` addresses follow the last used one. The number of addresses to add
is held in 32 bits. -/
def extendPool (s : Store) (g : AddressGroup) (buffer : UInt64) :
    Result (List Address × Store) :=
  if buffer.toNat ≤ s.unusedCount g then .ok ([], s)
  else
    match s.account? g.wallet g.account with
    | none => .error (.accountNotFound g.wallet g.account)
    | some account => s.createAddresses account g (UInt32.ofNat (buffer.toNat - s.unusedCount g))

/-- Extends pools, one after another. -/
def extendPools (buffer : UInt64) : List AddressGroup → Store → Result (List Address × Store)
  | [], s => .ok ([], s)
  | g :: gs, s => do
    let (created, s) ← s.extendPool g buffer
    let (more, s) ← extendPools buffer gs s
    return (created ++ more, s)

/-- The indexes of a pool's addresses, each once, of those that can be derived. -/
def taken (s : Store) (g : AddressGroup) : List Nat :=
  (((s.pool g).map (·.id.index.toNat)).filter (· < ExtendedKey.numberLimit)).eraseDups

/-- How many addresses a pool can still take. -/
def room (s : Store) (g : AddressGroup) : Nat := ExtendedKey.numberLimit - (s.taken g).length

/-! ## The range of new indexes -/

/-- A range of words is as long as `count` says, unless its end wraps around. -/
theorem spanLength_eq (first count : UInt32) : spanLength first count =
    if first.toNat + count.toNat < UInt32.size then count.toNat else 0 := by
  have hfirst := first.toNat_lt
  have hcount := count.toNat_lt
  have hword : UInt32.size = 2 ^ 32 := rfl
  rw [spanLength, UInt32.toNat_add]
  split <;> omega

theorem toNat_addressCount (h : s.poolSize g < UInt32.size) :
    (s.addressCount g).toNat = s.poolSize g := UInt32.toNat_ofNat_of_lt' h

theorem unusedCount_eq (hsize : s.poolSize g < UInt32.size)
    (hnext : s.nextUnused g < UInt32.size) : s.unusedCount g = s.poolSize g - s.nextUnused g := by
  rw [unusedCount, toNat_addressCount hsize, UInt32.toNat_ofNat_of_lt' hnext]

/-! ## Extending uses up room -/

theorem eq_of_insertAddress {a : Address} (h : s.insertAddress a = .ok s') :
    s' = { s with addresses := s.addresses ++ [a] } := by
  unfold insertAddress at h
  split at h
  · cases h
  · cases h; rfl

theorem fresh_of_insertAddress {a : Address} (h : s.insertAddress a = .ok s') :
    ∀ b ∈ s.addresses, b.id ≠ a.id := by
  unfold insertAddress at h
  split at h
  · cases h
  · rename_i hnew
    exact fun b hb hid => hnew (List.any_eq_true.2 ⟨b, hb, beq_iff_eq.2 hid⟩)

/-- The first of several addresses is derived and added, and then the others are appended. -/
theorem appendAddresses_succ {key : ExtendedKey} {index count : Nat} {created : List Address}
    (h : appendAddresses key g index (count + 1) s = .ok (created, s')) :
    ∃ scripts m more, key.derive g.kind.toNat index = .ok scripts ∧
      index < ExtendedKey.numberLimit ∧
      s.insertAddress ⟨⟨g, UInt32.ofNat index⟩, scripts⟩ = .ok m ∧
      appendAddresses key g (index + 1) count m = .ok (more, s') ∧
      created = ⟨⟨g, UInt32.ofNat index⟩, scripts⟩ :: more := by
  unfold appendAddresses at h
  obtain ⟨scripts, hderive, h⟩ := bind_eq_ok_iff.1 h
  obtain ⟨m, hinsert, h⟩ := bind_eq_ok_iff.1 h
  obtain ⟨⟨more, t⟩, hmore, h⟩ := bind_eq_ok_iff.1 h
  cases h
  have hderived := mapError_eq_ok_iff.1 hderive
  exact ⟨scripts, m, more, hderived, (ExtendedKey.scripts_derive hderived).2.1, hinsert, hmore, rfl⟩

/-- Appended addresses take the indexes from `index` on, all below the limit. -/
theorem eq_of_appendAddresses {key : ExtendedKey} {index count : Nat} {created : List Address}
    (h : appendAddresses key g index count s = .ok (created, s')) :
    s' = { s with addresses := s.addresses ++ created } ∧
      created.map (·.id) = (List.range' index count).map (fun i => ⟨g, UInt32.ofNat i⟩) ∧
      (0 < count → index + count ≤ ExtendedKey.numberLimit) := by
  induction count generalizing index s created with
  | zero =>
    cases h
    exact ⟨by simp, rfl, fun h => absurd h (Nat.lt_irrefl 0)⟩
  | succ count ih =>
    obtain ⟨scripts, m, more, -, hindex, hinsert, hmore, rfl⟩ := appendAddresses_succ h
    obtain ⟨hs, hids, hlt⟩ := ih hmore
    have hm := eq_of_insertAddress hinsert
    refine ⟨by rw [hs, hm]; simp, by simp [hids, List.range'_succ], fun _ => ?_⟩
    rcases Nat.eq_zero_or_pos count with h0 | hpos
    · omega
    · have := hlt hpos; omega

/-- Appended addresses belong to the pool, can be derived and were not there. -/
theorem new_of_appendAddresses {key : ExtendedKey} {index count : Nat} {created : List Address}
    (h : appendAddresses key g index count s = .ok (created, s')) :
    ∀ a ∈ created, a.id.group = g ∧ a.id.index.toNat < ExtendedKey.numberLimit ∧
      ∀ b ∈ s.addresses, b.id ≠ a.id := by
  induction count generalizing index s created with
  | zero =>
    cases h
    exact nofun
  | succ count ih =>
    obtain ⟨scripts, m, more, -, hindex, hinsert, hmore, rfl⟩ := appendAddresses_succ h
    obtain rfl := eq_of_insertAddress hinsert
    intro a ha
    rcases List.mem_cons.1 ha with rfl | ha
    · exact ⟨rfl, Nat.lt_of_le_of_lt (Nat.mod_le _ _) hindex, fresh_of_insertAddress hinsert⟩
    · obtain ⟨hgroup, hlimit, hnew⟩ := ih hmore a ha
      exact ⟨hgroup, hlimit, fun b hb => hnew b (List.mem_append_left _ hb)⟩

theorem nodup_eraseDups : (l : List Nat) → l.eraseDups.Nodup
  | [] => List.nodup_nil
  | i :: l => by
    rw [List.eraseDups_cons, List.nodup_cons]
    exact ⟨by simp, nodup_eraseDups _⟩
termination_by l => l.length
decreasing_by exact Nat.lt_succ_of_le (List.length_filter_le _ _)

theorem mem_taken {i : Nat} : i ∈ s.taken g ↔
    i < ExtendedKey.numberLimit ∧ ∃ a ∈ s.addresses, a.id.group = g ∧ a.id.index.toNat = i := by
  simp [taken, pool, and_comm, and_assoc, and_left_comm]

theorem room_le (h : ∀ a ∈ s.addresses, a ∈ s'.addresses) (g : AddressGroup) :
    s'.room g ≤ s.room g := by
  have hlength : (s.taken g).length ≤ (s'.taken g).length := by
    refine (nodup_eraseDups _).length_le_of_subset fun i hi => ?_
    obtain ⟨hlimit, a, ha, hid⟩ := mem_taken.1 hi
    exact mem_taken.2 ⟨hlimit, a, h a ha, hid⟩
  simp only [room]
  omega

/-- A pool with a new address that can be derived has lost room. -/
theorem room_lt (h : ∀ a ∈ s.addresses, a ∈ s'.addresses) {a : Address} (ha : a ∈ s'.addresses)
    (hlimit : a.id.index.toNat < ExtendedKey.numberLimit)
    (hnew : ∀ b ∈ s.addresses, b.id ≠ a.id) : s'.room a.id.group < s.room a.id.group := by
  have hfresh : a.id.index.toNat ∉ s.taken a.id.group := by
    intro hmem
    obtain ⟨-, b, hb, hgroup, hindex⟩ := mem_taken.1 hmem
    exact hnew b hb (AddressId.eq_of_index hgroup hindex)
  have hlength : (a.id.index.toNat :: s.taken a.id.group).length ≤ (s'.taken a.id.group).length := by
    refine (List.nodup_cons.2 ⟨hfresh, nodup_eraseDups _⟩).length_le_of_subset fun i hi => ?_
    rcases List.mem_cons.1 hi with rfl | hi
    · exact mem_taken.2 ⟨hlimit, a, ha, rfl, rfl⟩
    · obtain ⟨hi, b, hb, hid⟩ := mem_taken.1 hi
      exact mem_taken.2 ⟨hi, b, h b hb, hid⟩
  -- distinct indexes below the limit are no more than the limit
  have hbound : (s'.taken a.id.group).length ≤ ExtendedKey.numberLimit := by
    have hsub : s'.taken a.id.group ⊆ List.range ExtendedKey.numberLimit :=
      fun i hi => List.mem_range.2 (mem_taken.1 hi).1
    have hle := (nodup_eraseDups _).length_le_of_subset hsub
    rwa [List.length_range] at hle
  rw [List.length_cons] at hlength
  simp only [room]
  omega

/-- A pool that is extended loses room, and no other pool gains any. -/
theorem room_appendAddresses {key : ExtendedKey} {index count : Nat} {created : List Address}
    (h : appendAddresses key g index count s = .ok (created, s')) :
    (∀ g', s'.room g' ≤ s.room g') ∧ (created ≠ [] → s'.room g < s.room g) := by
  have hnew := new_of_appendAddresses h
  obtain ⟨rfl, -, -⟩ := eq_of_appendAddresses h
  have hsub : ∀ a ∈ s.addresses, a ∈ s.addresses ++ created := fun a ha => List.mem_append_left _ ha
  refine ⟨room_le hsub, fun hne => ?_⟩
  obtain ⟨a, more, rfl⟩ := List.exists_cons_of_ne_nil hne
  obtain ⟨rfl, hlimit, hfresh⟩ := hnew a List.mem_cons_self
  exact room_lt hsub (List.mem_append_right _ List.mem_cons_self) hlimit hfresh

/-- A pool is left as it is or goes on where it ends. -/
theorem extendPool_cases {buffer : UInt64} {created : List Address}
    (h : s.extendPool g buffer = .ok (created, s')) :
    (buffer.toNat ≤ s.unusedCount g ∧ created = [] ∧ s' = s) ∨
    (s.unusedCount g < buffer.toNat ∧
      ∃ account key, s.account? g.wallet g.account = some account ∧
        Result.ofDerivation (ExtendedKey.ofText account.extendedKey) = .ok key ∧
        appendAddresses key g (s.addressCount g).toNat
          (spanLength (s.addressCount g) (UInt32.ofNat (buffer.toNat - s.unusedCount g))) s =
            .ok (created, s')) := by
  unfold extendPool at h
  split at h
  · rename_i hle
    cases h
    exact .inl ⟨hle, rfl, rfl⟩
  · rename_i hlt
    split at h
    · cases h
    · rename_i account haccount
      obtain ⟨key, hkey, h⟩ := bind_eq_ok_iff.1 h
      exact .inr ⟨Nat.lt_of_not_le hlt, account, key, haccount, hkey, h⟩

theorem room_extendPool {buffer : UInt64} {created : List Address}
    (h : s.extendPool g buffer = .ok (created, s')) :
    (∀ g', s'.room g' ≤ s.room g') ∧ (created ≠ [] → s'.room g < s.room g) := by
  rcases extendPool_cases h with ⟨-, rfl, rfl⟩ | ⟨-, _, _, -, -, happend⟩
  · exact ⟨fun _ => Nat.le_refl _, fun hne => absurd rfl hne⟩
  · exact room_appendAddresses happend

theorem room_extendPools {buffer : UInt64} {gs : List AddressGroup} {created : List Address}
    (h : extendPools buffer gs s = .ok (created, s')) :
    (∀ g, s'.room g ≤ s.room g) ∧ (created ≠ [] → ∃ g ∈ gs, s'.room g < s.room g) := by
  induction gs generalizing s created with
  | nil => cases h; exact ⟨fun _ => Nat.le_refl _, fun hne => absurd rfl hne⟩
  | cons g gs ih =>
    unfold extendPools at h
    obtain ⟨⟨first, s1⟩, hfirst, h⟩ := bind_eq_ok_iff.1 h
    obtain ⟨⟨more, s2⟩, hmore, h⟩ := bind_eq_ok_iff.1 h
    cases h
    obtain ⟨hle, hlt⟩ := room_extendPool hfirst
    obtain ⟨hle', hlt'⟩ := ih hmore
    refine ⟨fun g' => Nat.le_trans (hle' g') (hle g'), fun hne => ?_⟩
    by_cases hnil : first = []
    · have hmore : more ≠ [] := by
        rintro rfl; simp [hnil] at hne
      obtain ⟨g', hg', hroom⟩ := hlt' hmore
      exact ⟨g', List.mem_cons_of_mem _ hg', Nat.lt_of_lt_of_le hroom (hle g')⟩
    · exact ⟨g, List.mem_cons_self, Nat.lt_of_le_of_lt (hle' g) (hlt hnil)⟩

/-- The room that several pools have together. -/
def totalRoom (s : Store) (pools : List AddressGroup) : Nat :=
  pools.foldr (fun g total => s.room g + total) 0

theorem totalRoom_le {pools : List AddressGroup} (h : ∀ g, s'.room g ≤ s.room g) :
    s'.totalRoom pools ≤ s.totalRoom pools := by
  induction pools with
  | nil => exact Nat.le_refl _
  | cons g pools ih => simpa [totalRoom] using Nat.add_le_add (h g) ih

theorem totalRoom_lt {pools : List AddressGroup} (h : ∀ g, s'.room g ≤ s.room g)
    (hlt : ∃ g ∈ pools, s'.room g < s.room g) : s'.totalRoom pools < s.totalRoom pools := by
  obtain ⟨g, hg, hroom⟩ := hlt
  induction pools with
  | nil => cases hg
  | cons g' pools ih =>
    have hle : s'.totalRoom pools ≤ s.totalRoom pools := totalRoom_le h
    have hg' := h g'
    simp only [totalRoom, List.foldr_cons] at *
    rcases List.mem_cons.1 hg with rfl | hmem
    · omega
    · have := ih hmem; omega

/-- Extending some of several pools uses up the room they have together. -/
theorem totalRoom_extendPools_lt {buffer : UInt64} {pools gs : List AddressGroup}
    {created : List Address} (hsub : ∀ g ∈ gs, g ∈ pools)
    (h : extendPools buffer gs s = .ok (created, s')) (hne : created ≠ []) :
    s'.totalRoom pools < s.totalRoom pools := by
  obtain ⟨hle, hlt⟩ := room_extendPools h
  obtain ⟨g, hg, hroom⟩ := hlt hne
  exact totalRoom_lt hle ⟨g, hsub g hg, hroom⟩

end Store

end WalletLedger
