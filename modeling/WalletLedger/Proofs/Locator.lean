import WalletLedger.Sync.History

/-!
# What a locator tells

The heights of a locator descend, so the first of them that is not above a block is the highest. The
block is compared with the wallet's history at this height alone. If the two chains agree below
every block they share, this tells whether they agree at all heights of the locator up to the block,
and it tells nothing of the heights between that one and the block.

* `pairwise_locatorHeights`: the heights of a locator descend.
* `BlockLocator.describes_of_build`: a locator holds what its chain has at these heights.
* `Wallet.contains_iff`: when a block is taken to lie on a wallet's history.
-/

namespace WalletLedger

/-- Blocks determine what lies below them: where both chains have one hash, they agree below. -/
def ChainView.HashLinked (c d : ChainView) : Prop :=
  ∀ height hash, c height = some hash → d height = some hash → ∀ below < height, c below = d below

/-- Where both chains have one hash, they agree from there down. -/
theorem ChainView.HashLinked.eq_of_le {c d : ChainView} (h : c.HashLinked d) {height below : UInt32}
    {hash : Hash256} (hc : c height = some hash) (hd : d height = some hash) (hle : below ≤ height) :
    d below = c below := by
  rcases UInt32.le_iff_lt_or_eq.1 hle with hlt | rfl
  · exact (h height hash hc hd below hlt).symm
  · rw [hc, hd]

/-- A view of a part of a chain: every block that it names is the chain's. -/
def ChainView.Within (view c : ChainView) : Prop :=
  ∀ height hash, view height = some hash → c height = some hash

/-! ## The heights of a locator -/

theorem pairwise_locatorWalk (taken height : Nat) :
    (locatorWalk taken height).Pairwise fun a b => b < a := by
  fun_induction locatorWalk taken height with
  | case1 taken => exact List.pairwise_singleton _ _
  | case2 taken height hne ih =>
    refine List.pairwise_cons.2 ⟨fun n hn => ?_, ih⟩
    have hle := le_of_mem_locatorWalk hn
    have hstride := locatorStride_pos taken
    omega

/-- The heights of a locator descend. -/
theorem pairwise_locatorHeights (height : UInt32) :
    (locatorHeights height).Pairwise fun a b => b < a := by
  unfold locatorHeights
  rw [List.pairwise_map]
  refine (pairwise_locatorWalk 0 height.toNat).imp_of_mem fun {m n} hm hn hlt => ?_
  have hsize := height.toNat_lt_size
  have hm' := le_of_mem_locatorWalk hm
  have hn' := le_of_mem_locatorWalk hn
  rw [UInt32.lt_iff_toNat_lt, UInt32.toNat_ofNat_of_lt' (by omega),
    UInt32.toNat_ofNat_of_lt' (by omega)]
  exact hlt

/-- The height itself comes first. -/
theorem exists_locatorHeights_eq_cons (height : UInt32) :
    ∃ rest, locatorHeights height = height :: rest := by
  unfold locatorHeights
  rw [locatorWalk]
  split
  · rename_i hzero
    have hheight : height = 0 := UInt32.toNat_inj.1 hzero
    rw [hheight]
    exact ⟨[], rfl⟩
  · rw [List.map_cons, UInt32.ofNat_toNat]
    exact ⟨_, rfl⟩

theorem self_mem_locatorHeights (height : UInt32) : height ∈ locatorHeights height := by
  obtain ⟨rest, hrest⟩ := exists_locatorHeights_eq_cons height
  rw [hrest]
  exact List.mem_cons_self

/-- A walk goes down to zero. -/
theorem zero_mem_locatorWalk (taken height : Nat) : 0 ∈ locatorWalk taken height := by
  fun_induction locatorWalk taken height with
  | case1 taken => exact List.mem_cons_self
  | case2 taken height hne ih => exact List.mem_cons_of_mem _ ih

theorem zero_mem_locatorHeights (height : UInt32) : 0 ∈ locatorHeights height :=
  List.mem_map_of_mem (f := UInt32.ofNat) (zero_mem_locatorWalk 0 height.toNat)

/-! ## The blocks of a locator -/

namespace BlockLocator

variable {tip : BlockRef} {c : ChainView} {locator : BlockLocator}

/-- For a block of the chain, the branch is the chain itself. -/
theorem ancestor_eq_ok_iff (htip : c tip.height = some tip.hash) {height : UInt32} {hash : Hash256} :
    ancestor tip c height = .ok hash ↔ c height = some hash := by
  unfold ancestor
  split
  · rename_i heq
    rw [heq, htip, Except.ok.injEq, Option.some.injEq]
  · cases c height with
    | none => exact ⟨(nomatch ·), (nomatch ·)⟩
    | some found => rw [Except.ok.injEq, Option.some.injEq]

theorem exists_build (htip : c tip.height = some tip.hash)
    (hdef : ∀ height ≤ tip.height, (c height).isSome = true) :
    ∃ locator, build tip c = .ok locator := by
  have hall : ∀ height ∈ locatorHeights tip.height, ∃ hash, ancestor tip c height = .ok hash := by
    intro height hmem
    obtain ⟨hash, hhash⟩ := Option.isSome_iff_exists.1 (hdef height (le_of_mem_locatorHeights hmem))
    exact ⟨hash, (ancestor_eq_ok_iff htip).2 hhash⟩
  obtain ⟨hashes, hhashes⟩ := exists_mapM_eq_ok hall
  exact ⟨⟨tip.height, hashes⟩, bind_eq_ok_iff.2 ⟨hashes, hhashes, rfl⟩⟩

/-- Hashes of a chain at the heights of a locator. -/
structure Describes (c : ChainView) (height : UInt32) (hashes : List Hash256) : Prop where
  heights : ((locatorHeights height).zip hashes).map Prod.fst = locatorHeights height
  blocks : ∀ entry ∈ (locatorHeights height).zip hashes, c entry.1 = some entry.2

/-- A locator that is built from a part of a chain describes the chain. -/
theorem describes_of_build {view : ChainView} (htip : c tip.height = some tip.hash)
    (hview : view.Within c) (h : build tip view = .ok locator) :
    Describes c tip.height locator.hashes := by
  obtain ⟨hashes, hhashes, h⟩ := bind_eq_ok_iff.1 h
  cases h
  obtain ⟨hlength, hzip⟩ := zip_of_mapM_eq_ok hhashes
  refine ⟨List.map_fst_zip (Nat.le_of_eq hlength), fun entry hentry => ?_⟩
  have hancestor := hzip entry hentry
  unfold ancestor at hancestor
  split at hancestor
  · rename_i heq
    rw [Except.ok.injEq] at hancestor
    rw [heq, htip, hancestor]
  · cases hfound : view entry.1 with
    | none =>
      rw [hfound] at hancestor
      cases hancestor
    | some found =>
      rw [hfound, Except.ok.injEq] at hancestor
      rw [hview _ _ hfound, hancestor]

end BlockLocator

namespace Wallet

variable {w : Wallet} {tip : BlockRef} {c d : ChainView} {height : UInt32} {hash : Hash256}

/-- The recorded ancestor at or below a height is the highest that there is. -/
theorem ancestorAt?_eq_some {locator : List Hash256} {entry : UInt32 × Hash256}
    (hfst : ((locatorHeights tip.height).zip locator).map Prod.fst = locatorHeights tip.height)
    (h : ancestorAt? tip locator height = some entry) :
    entry ∈ (locatorHeights tip.height).zip locator ∧ entry.1 ≤ height ∧
      ∀ g ∈ locatorHeights tip.height, g ≤ height → g ≤ entry.1 := by
  obtain ⟨hle, before, after, hsplit, hbefore⟩ := List.find?_eq_some_iff_append.1 h
  have hpair := pairwise_locatorHeights tip.height
  rw [← hfst, List.pairwise_map, hsplit, List.pairwise_append] at hpair
  refine ⟨List.mem_of_find?_eq_some h, by simpa using hle, fun g hg hgle => ?_⟩
  rw [← hfst, hsplit] at hg
  obtain ⟨other, hother, rfl⟩ := List.mem_map.1 hg
  rcases List.mem_append.1 hother with hother | hother
  · -- what comes earlier lies above the height
    have habove := hbefore other hother
    simp only [Bool.not_eq_true', decide_eq_false_iff_not] at habove
    exact absurd hgle habove
  · rcases List.mem_cons.1 hother with rfl | hother
    · exact UInt32.le_refl _
    · exact UInt32.le_of_lt ((List.pairwise_cons.1 hpair.2.1).1 other hother)

/-- **When a block is taken to lie on the history of a wallet.** For a wallet whose tip and locator
are of one chain, and a block of another that is no higher than the tip: if and only if the chains
agree at every height of the locator up to the block. -/
theorem contains_iff (htip : w.tip = some tip) (hat : c tip.height = some tip.hash)
    (hlocator : BlockLocator.Describes c tip.height w.locator) (hlink : c.HashLinked d)
    (hle : height ≤ tip.height) (hd : d height = some hash)
    (hdef : ∀ below ≤ height, (d below).isSome = true) :
    w.contains (some ⟨height, hash⟩) d = .ok true ↔
      ∀ g ∈ locatorHeights tip.height, g ≤ height → d g = c g := by
  unfold contains
  rw [htip]
  simp only
  rw [if_neg (UInt32.not_lt.2 hle)]
  split
  · rename_i heq
    subst heq
    rw [Except.ok.injEq, beq_iff_eq]
    constructor
    · intro hhash g hg _
      exact hlink.eq_of_le hat (hhash ▸ hd) (le_of_mem_locatorHeights hg)
    · intro hagree
      have hsame := hagree tip.height (self_mem_locatorHeights _) hle
      rw [hd, hat] at hsame
      exact Option.some.inj hsame
  · cases hfound : ancestorAt? tip w.locator height with
    | none =>
      -- no height of the locator is low enough
      refine ⟨fun _ g hg hgle => ?_, fun _ => rfl⟩
      rw [← hlocator.heights] at hg
      obtain ⟨entry, hentry, rfl⟩ := List.mem_map.1 hg
      have habove := List.find?_eq_none.1 hfound entry hentry
      rw [decide_eq_true_eq] at habove
      exact absurd hgle habove
    | some entry =>
      obtain ⟨hmem, hentryle, hmax⟩ := ancestorAt?_eq_some hlocator.heights hfound
      have hc := hlocator.blocks entry hmem
      have hg : entry.1 ∈ locatorHeights tip.height := by
        rw [← hlocator.heights]
        exact List.mem_map_of_mem hmem
      obtain ⟨found, hfoundhash⟩ := Option.isSome_iff_exists.1 (hdef entry.1 hentryle)
      have hancestor : BlockLocator.ancestor ⟨height, hash⟩ d entry.1 = .ok found :=
        (BlockLocator.ancestor_eq_ok_iff hd).2 hfoundhash
      simp only [hancestor, Except.map, Except.ok.injEq, beq_iff_eq]
      constructor
      · intro hsame g' hg' hgle
        exact hlink.eq_of_le hc (hsame ▸ hfoundhash) (hmax g' hg' hgle)
      · intro hagree
        have hsame := hagree entry.1 hg hentryle
        rw [hc, hfoundhash] at hsame
        exact Option.some.inj hsame

end Wallet

end WalletLedger
