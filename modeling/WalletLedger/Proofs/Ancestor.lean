import WalletLedger.Proofs.Advance

/-!
# The ancestor that a block is compared at

A block below the tip of a wallet is compared at the highest height of the locator that is not above it,
its floor. Up to this height the locator answers for the chain that the wallet has followed, and the
distances between its heights double, so that a block is further from the tip than from its floor.

* `IsLocatorFloor`: the height that a block is compared at.
* `exists_mem_locatorWalk`: a walk comes closer to a height than the tip is, by the step lemma
  `locatorStride_succ_le`.
* `Wallet.contains_of_floor`: the answer is what the chain has at the floor, the block put on it.
* `Wallet.contains_at_floor`: what is asked of the chain, what the answers mean, and how much is left
  unasked.
-/

namespace WalletLedger

/-- The highest height of the locator of a tip that is not above a height. -/
structure IsLocatorFloor (tip height floor : UInt32) : Prop where
  mem : floor ∈ locatorHeights tip
  le : floor ≤ height
  highest : ∀ g ∈ locatorHeights tip, g ≤ height → g ≤ floor

/-- A chain with a block put at its height. -/
def ChainView.place (chain : ChainView) (block : BlockRef) : ChainView := fun height =>
  if height = block.height then some block.hash else chain height

/-! ## Distances -/

/-- A stride is at most twice the one before it. -/
theorem locatorStride_succ_le (taken : Nat) :
    locatorStride (taken + 1) ≤ 2 * locatorStride taken := by
  unfold locatorStride
  by_cases hbelow : taken + 1 < 8
  · rw [if_pos hbelow, if_pos (by omega)]
    omega
  · rw [if_neg hbelow]
    split
    · -- the first stride that is not one
      have htaken : taken = 7 := by omega
      rw [htaken]
      decide
    · have hsucc : taken + 1 - 7 = taken - 7 + 1 := by omega
      have hdouble : 1 <<< (taken + 1 - 7) = 2 * 1 <<< (taken - 7) := by
        rw [hsucc, Nat.one_shiftLeft, Nat.one_shiftLeft, Nat.pow_succ, Nat.mul_comm]
      exact Nat.le_of_eq hdouble

theorem self_mem_locatorWalk (taken height : Nat) : height ∈ locatorWalk taken height := by
  rw [locatorWalk]
  split
  · rename_i hzero
    rw [hzero]
    exact List.mem_cons_self
  · exact List.mem_cons_self

/-- **A walk comes closer to a height than the tip is.** It does if its next stride is no longer than
the way that it has come, and this it keeps: the way grows by a stride, and strides at most double. -/
theorem exists_mem_locatorWalk {tip taken height h : Nat} (hle : height ≤ tip)
    (hstride : locatorStride taken ≤ tip - height + 1) (hh : h < height) :
    ∃ g ∈ locatorWalk taken height, g ≤ h ∧ h - g < tip - h := by
  fun_induction locatorWalk taken height with
  | case1 taken => exact absurd hh (Nat.not_lt_zero h)
  | case2 taken height hne ih =>
    have hpos := locatorStride_pos taken
    by_cases hnext : h < height - locatorStride taken
    · have hsucc := locatorStride_succ_le taken
      obtain ⟨g, hg, hgle, hgap⟩ := ih (by omega) (by omega) hnext
      exact ⟨g, List.mem_cons_of_mem _ hg, hgle, hgap⟩
    · -- the stride leads to the height or past it
      refine ⟨height - locatorStride taken, ?_, by omega, by omega⟩
      exact List.mem_cons_of_mem _ (self_mem_locatorWalk _ _)

theorem exists_mem_locatorHeights {tip height : UInt32} (h : height < tip) :
    ∃ g ∈ locatorHeights tip, g ≤ height ∧
      height.toNat - g.toNat < tip.toNat - height.toNat := by
  have hfirst : locatorStride 0 ≤ tip.toNat - tip.toNat + 1 := by
    rw [Nat.sub_self]
    decide
  obtain ⟨g, hg, hle, hgap⟩ :=
    exists_mem_locatorWalk (Nat.le_refl tip.toNat) hfirst (UInt32.lt_iff_toNat_lt.1 h)
  have hsize := height.toNat_lt_size
  have hword : (UInt32.ofNat g).toNat = g := UInt32.toNat_ofNat_of_lt' (by omega)
  refine ⟨UInt32.ofNat g, List.mem_map_of_mem hg, ?_, ?_⟩
  · rw [UInt32.le_iff_toNat_le, hword]
    exact hle
  · rw [hword]
    exact hgap

/-- **A block is further from the tip than from its floor.** -/
theorem IsLocatorFloor.gap {tip height floor : UInt32} (h : IsLocatorFloor tip height floor)
    (hlt : height < tip) : height.toNat - floor.toNat < tip.toNat - height.toNat := by
  obtain ⟨g, hg, hle, hgap⟩ := exists_mem_locatorHeights hlt
  have hfloor := UInt32.le_iff_toNat_le.1 (h.highest g hg hle)
  omega

/-! ## Answers -/

/-- An ancestor is read from the chain with the block on it. -/
theorem BlockLocator.ancestor_eq (block : BlockRef) (chain : ChainView) (height : UInt32) :
    ancestor block chain height =
      match chain.place block height with
      | some hash => .ok hash
      | none => .error (.blockNotFound height) := by
  unfold ancestor ChainView.place
  split <;> rfl

namespace Wallet

variable {w : Wallet} {tip header : BlockRef} {c d : ChainView}

/-- **What a block below the tip is compared with**: what the chain that the wallet has followed has at
its floor. -/
theorem contains_of_floor (htip : w.tip = some tip)
    (hlocator : BlockLocator.Describes c tip.height w.locator) (hlt : header.height < tip.height) :
    ∃ floor recorded, IsLocatorFloor tip.height header.height floor ∧ c floor = some recorded ∧
      ∀ d, w.contains (some header) d =
        (BlockLocator.ancestor header d floor).map (· == recorded) := by
  have hfound : ∃ entry, ancestorAt? tip w.locator header.height = some entry := by
    obtain ⟨g, hg, hle, -⟩ := exists_mem_locatorHeights hlt
    rw [← hlocator.heights] at hg
    obtain ⟨entry, hentry, rfl⟩ := List.mem_map.1 hg
    refine Option.isSome_iff_exists.1 (List.find?_isSome.2 ⟨entry, hentry, ?_⟩)
    rw [decide_eq_true_eq]
    exact hle
  obtain ⟨⟨floor, recorded⟩, hfound⟩ := hfound
  obtain ⟨hmem, hle, hhighest⟩ := ancestorAt?_eq_some hlocator.heights hfound
  have hheight : floor ∈ locatorHeights tip.height := by
    rw [← hlocator.heights]
    exact List.mem_map_of_mem (f := Prod.fst) hmem
  refine ⟨floor, recorded, ⟨hheight, hle, hhighest⟩, hlocator.blocks _ hmem, fun d => ?_⟩
  unfold contains
  rw [htip]
  dsimp only
  rw [if_neg (UInt32.not_lt.2 (UInt32.le_of_lt hlt)), if_neg (UInt32.ne_of_lt hlt), hfound]

end Wallet

namespace Sample

/-- A chain in which the byte of a height names its block. -/
def counted : ChainView := fun height => some (hash (UInt8.ofNat height.toNat))

/-- A chain that leaves this one above height six. -/
def parting : ChainView := fun height => if height ≤ 6 then counted height else some (hash 99)

/-- A wallet that has followed the first chain to height twenty. -/
def counter : Wallet :=
  { id := 1, name := "savings", tip := some ⟨20, hash 20⟩,
    locator := (locatorHeights 20).map fun height => hash (UInt8.ofNat height.toNat),
    fromExtendedKey := true, seed := "", chainCode := "", created := 0 }

theorem locatorHeights_twenty :
    locatorHeights 20 = [20, 19, 18, 17, 16, 15, 14, 13, 12, 10, 6, 0] := by
  decide +kernel

theorem build_counted :
    BlockLocator.build ⟨20, hash 20⟩ counted = .ok ⟨20, counter.locator⟩ := by
  rw [BlockLocator.build, counter, locatorHeights_twenty]
  rfl

end Sample

namespace Wallet

variable {w : Wallet} {tip header : BlockRef} {c : ChainView}

/-- **A block below the tip is compared at its floor.** For a wallet at a block of a chain, with the
locator of this block, and any chain to compare with: if the block asked for is at its floor, its name
alone decides, and otherwise the chain's block at the floor does, which is reported if it is missing. So
a block of the followed chain is contained if the other chain agrees up to it, and a block that is not
contained tells that the chains differ no higher than it. The heights between the block and its floor
are fewer than those between the block and the tip. -/
theorem contains_at_floor {locator : BlockLocator} (htip : w.tip = some tip)
    (hat : c tip.height = some tip.hash) (hbuild : BlockLocator.build tip c = .ok locator)
    (hlocator : w.locator = locator.hashes) (hlt : header.height < tip.height) :
    (∃ floor recorded, IsLocatorFloor tip.height header.height floor ∧ c floor = some recorded ∧
      (floor = header.height → ∀ d, w.contains (some header) d = .ok (header.hash == recorded)) ∧
      (floor ≠ header.height →
        (∀ d hash, d floor = some hash → w.contains (some header) d = .ok (hash == recorded)) ∧
        (∀ d, d floor = none → w.contains (some header) d = .error (.blockNotFound floor)) ∧
        header.height.toNat - floor.toNat < tip.height.toNat - header.height.toNat)) ∧
    (∀ d, c header.height = some header.hash → (∀ height ≤ header.height, d height = c height) →
      w.contains (some header) d = .ok true) ∧
    ∀ d, w.contains (some header) d = .ok false →
      ∃ height ≤ header.height, c height ≠ d.place header height := by
  have hdescribes : BlockLocator.Describes c tip.height w.locator := by
    rw [hlocator]
    exact BlockLocator.describes_of_build hat (fun _ _ h => h) hbuild
  obtain ⟨floor, recorded, hfloor, hrecorded, hanswer⟩ := contains_of_floor htip hdescribes hlt
  simp only [hanswer, BlockLocator.ancestor_eq]
  refine ⟨⟨floor, recorded, hfloor, hrecorded, fun heq d => ?_, fun hne => ⟨fun d hash hd => ?_,
    fun d hd => ?_, hfloor.gap hlt⟩⟩, fun d hblock hagree => ?_, fun d hfalse => ?_⟩
  · rw [ChainView.place, if_pos heq]
    rfl
  · rw [ChainView.place, if_neg hne, hd]
    rfl
  · rw [ChainView.place, if_neg hne, hd]
    rfl
  · -- the chain with the block on it is the followed one at the floor
    have hplaced : d.place header floor = some recorded := by
      rw [ChainView.place, ← hrecorded]
      split
      · rename_i heq
        rw [heq, hblock]
      · exact hagree floor hfloor.le
    rw [hplaced]
    simp [Except.map]
  · refine ⟨floor, hfloor.le, fun hsame => ?_⟩
    rw [← hsame, hrecorded] at hfalse
    simp [Except.map] at hfalse

/-- Two blocks that the wallet has not followed: the one at height eight passes, since the chains part
above its floor, and the one at height ten does not. -/
theorem contains_at_floor_parting :
    Sample.counter.contains (some ⟨8, Sample.hash 99⟩) Sample.parting = .ok true ∧
    Sample.counter.contains (some ⟨8, Sample.hash 99⟩) (fun _ => none) = .error (.blockNotFound 6) ∧
    Sample.counter.contains (some ⟨10, Sample.hash 99⟩) Sample.parting = .ok false := by
  obtain ⟨⟨floor, recorded, hfloor, hrecorded, -, hbelow⟩, -, -⟩ :=
    contains_at_floor (w := Sample.counter) rfl rfl Sample.build_counted rfl
      (show (⟨8, Sample.hash 99⟩ : BlockRef).height < 20 by decide)
  obtain ⟨⟨own, named, hown, hnamed, hat, -⟩, -, -⟩ :=
    contains_at_floor (w := Sample.counter) rfl rfl Sample.build_counted rfl
      (show (⟨10, Sample.hash 99⟩ : BlockRef).height < 20 by decide)
  obtain ⟨hmem, hle, hhighest⟩ := hfloor
  obtain ⟨hmem', hle', hhighest'⟩ := hown
  rw [Sample.locatorHeights_twenty] at hmem hhighest hmem' hhighest'
  have hlow : floor ∈ [6, 0] := by
    have hfilter : [20, 19, 18, 17, 16, 15, 14, 13, 12, 10, 6, 0].filter
        (fun g : UInt32 => decide (g ≤ 8)) = [6, 0] := by decide
    rw [← hfilter]
    exact List.mem_filter.2 ⟨hmem, decide_eq_true hle⟩
  have hsix : floor = 6 := by
    have hge := hhighest 6 (by decide) (by decide)
    rcases List.mem_cons.1 hlow with h | h
    · exact h
    · rw [List.mem_singleton.1 h] at hge
      exact absurd hge (by decide)
  have hten : own = 10 := UInt32.le_antisymm hle' (hhighest' 10 (by decide) (by decide))
  subst hsix hten
  obtain ⟨hpresent, hmissing, -⟩ := hbelow (by decide)
  refine ⟨?_, hmissing _ rfl, ?_⟩
  · rw [hpresent Sample.parting _ rfl]
    cases hrecorded
    decide
  · rw [hat rfl]
    cases hnamed
    decide

end Wallet

end WalletLedger
