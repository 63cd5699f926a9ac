import Mathlib.Data.List.Chain
import WalletLedger.Proofs.Advance
import WalletLedger.Proofs.Blocks

/-!
# Which block lists are accepted, and what chain they are read on

Blocks are processed together if each extends the one before it, and then as if they were on the chain
already: the view that they are laid over is read below the first of them only, so that what a chain has
in their place, such as the blocks of a fork that was left, does not matter.

* `PlacedBlock.LeadsTo`: a block that another one extends.
* `BatchHeader.firstBreak?_eq_none_iff`, `BatchHeader.exists_break`: which lists are accepted, and which
  block is named otherwise.
* `HashChain.extended`, `HashChain.build_extended`: the chain with the blocks on it, and the locator that
  is read from it.
* `Indexer.processBlocks_eq`, `Indexer.processBlocks_singleton`: what processing blocks comes to.
* `Indexer.block_lists_accepted`: the lists that are accepted, and what they do.
-/

namespace WalletLedger

/-- The next block is one higher and names the block as the one before it. -/
def PlacedBlock.LeadsTo (placed next : PlacedBlock) : Prop :=
  next.height.toNat = placed.height.toNat + 1 ∧ next.block.prev = placed.block.hash

instance (placed next : PlacedBlock) : Decidable (placed.LeadsTo next) :=
  inferInstanceAs (Decidable (_ ∧ _))

/-- The header of a list of blocks, from before the first to the last. -/
def BatchHeader.across (first : PlacedBlock) (rest : List PlacedBlock) : BatchHeader :=
  ⟨first.block.prev, ((first :: rest).getLast (List.cons_ne_nil _ _)).ref⟩

/-- A chain below a height, with the hashes of blocks pushed on top. -/
def HashChain.extended (c : HashChain) (height : UInt32) (blocks : List PlacedBlock) : HashChain :=
  blocks.foldl (fun c placed => c.push placed.block.hash) ⟨c.hashes.take height.toNat⟩

variable {first placed next : PlacedBlock} {rest blocks : List PlacedBlock}

/-! ## Lists -/

namespace BatchHeader

/-- Below the last height there is a next one. -/
theorem leadsTo_iff (hbound : placed.height.toNat < UInt32.size - 1) :
    (next.height = placed.height + 1 ∧ next.block.prev = placed.block.hash) ↔
      placed.LeadsTo next := by
  have hsucc : (placed.height + 1).toNat = placed.height.toNat + 1 := by
    rw [UInt32.toNat_add]
    exact Nat.mod_eq_of_lt (Nat.add_lt_of_lt_sub hbound)
  rw [PlacedBlock.LeadsTo, ← UInt32.toNat_inj, hsucc]

/-- **A list has no break** if and only if each block leads to the next. -/
theorem firstBreak?_eq_none_iff
    (hbound : ∀ placed ∈ blocks, placed.height.toNat < UInt32.size - 1) :
    firstBreak? blocks = none ↔ blocks.IsChain PlacedBlock.LeadsTo := by
  fun_induction firstBreak? blocks with
  | case1 => exact iff_of_true rfl .nil
  | case2 placed => exact iff_of_true rfl (.singleton placed)
  | case3 placed next rest hnext ih =>
    have hleads := (leadsTo_iff (hbound placed List.mem_cons_self)).1 hnext
    rw [ih fun other hother => hbound other (List.mem_cons_of_mem _ hother), List.isChain_cons_cons]
    exact (and_iff_right hleads).symm
  | case4 placed next rest hbreak =>
    refine iff_of_false (nomatch ·) fun hchain => hbreak ?_
    exact (leadsTo_iff (hbound placed List.mem_cons_self)).2 (List.isChain_cons_cons.1 hchain).1

/-- **The block that is named** is the first that the one before it does not lead to. -/
theorem exists_break (hbound : ∀ placed ∈ blocks, placed.height.toNat < UInt32.size - 1)
    (h : firstBreak? blocks = some next) : ∃ before placed later,
      blocks = before ++ placed :: next :: later ∧
      (before ++ [placed]).IsChain PlacedBlock.LeadsTo ∧ ¬ placed.LeadsTo next := by
  fun_induction firstBreak? blocks with
  | case1 => cases h
  | case2 => cases h
  | case3 placed follower rest hnext ih =>
    have hleads := (leadsTo_iff (hbound placed List.mem_cons_self)).1 hnext
    obtain ⟨before, last, later, heq, hchain, hbreak⟩ :=
      ih (fun other hother => hbound other (List.mem_cons_of_mem _ hother)) h
    refine ⟨placed :: before, last, later, by rw [heq, List.cons_append], ?_, hbreak⟩
    -- the part before the break starts with the second block
    cases before with
    | nil =>
      cases heq
      exact List.isChain_cons_cons.2 ⟨hleads, hchain⟩
    | cons second before =>
      cases heq
      exact List.isChain_cons_cons.2 ⟨hleads, hchain⟩
  | case4 placed follower rest hbreak =>
    cases h
    refine ⟨[], placed, rest, rfl, .singleton placed, fun hleads => hbreak ?_⟩
    exact (leadsTo_iff (hbound placed List.mem_cons_self)).2 hleads

theorem ofBlocks_of_isChain
    (hbound : ∀ placed ∈ first :: rest, placed.height.toNat < UInt32.size - 1)
    (hchain : (first :: rest).IsChain PlacedBlock.LeadsTo) :
    ofBlocks (first :: rest) = .ok (some (across first rest)) := by
  unfold ofBlocks
  dsimp only
  rw [(firstBreak?_eq_none_iff hbound).2 hchain]
  rfl

theorem ofBlocks_of_not_isChain
    (hbound : ∀ placed ∈ first :: rest, placed.height.toNat < UInt32.size - 1)
    (hchain : ¬ (first :: rest).IsChain PlacedBlock.LeadsTo) : ∃ before placed next later,
      first :: rest = before ++ placed :: next :: later ∧
      (before ++ [placed]).IsChain PlacedBlock.LeadsTo ∧ ¬ placed.LeadsTo next ∧
      ofBlocks (first :: rest) = .error (.nonContiguousBatch next.height next.block.hash) := by
  cases hbreak : firstBreak? (first :: rest) with
  | none => exact absurd ((firstBreak?_eq_none_iff hbound).1 hbreak) hchain
  | some next =>
    obtain ⟨before, placed, later, heq, hbefore, hnot⟩ := exists_break hbound hbreak
    refine ⟨before, placed, next, later, heq, hbefore, hnot, ?_⟩
    unfold ofBlocks
    dsimp only
    rw [hbreak]

end BatchHeader

/-! ## Chains -/

namespace HashChain

variable {c : HashChain} {height : UInt32}

/-- A list that starts at the next height of a chain takes up the heights from there on. -/
theorem takes_of_isChain (hchain : (first :: rest).IsChain PlacedBlock.LeadsTo)
    (hheight : first.height.toNat = c.hashes.length) : c.Takes (first :: rest) := by
  induction rest generalizing c first with
  | nil => exact ⟨hheight, trivial⟩
  | cons next rest ih =>
    obtain ⟨hleads, hrest⟩ := List.isChain_cons_cons.1 hchain
    refine ⟨hheight, ih hrest ?_⟩
    rw [length_push, hleads.1, hheight]

/-- Blocks that are laid over a chain are read as if they were pushed. -/
theorem Takes.withBlocks_eq (h : c.Takes blocks) :
    c.view.withBlocks blocks = (blocks.foldl (fun c placed => c.push placed.block.hash) c).view := by
  induction blocks generalizing c with
  | nil => rfl
  | cons placed rest ih => rw [← withBlocks_push h, ih h.2, List.foldl_cons]

/-- The heights of a list go from the first to the last. -/
theorem exists_mem_of_isChain (hchain : (first :: rest).IsChain PlacedBlock.LeadsTo)
    (hge : first.height ≤ height)
    (hle : height ≤ ((first :: rest).getLast (List.cons_ne_nil _ _)).height) :
    ∃ placed ∈ first :: rest, placed.height = height := by
  induction rest generalizing first with
  | nil => exact ⟨first, List.mem_cons_self, UInt32.le_antisymm hge hle⟩
  | cons next rest ih =>
    obtain ⟨hleads, hrest⟩ := List.isChain_cons_cons.1 hchain
    rcases UInt32.lt_or_eq_of_le hge with hlt | rfl
    · have hnext : next.height ≤ height := by
        rw [UInt32.le_iff_toNat_le, hleads.1]
        exact UInt32.lt_iff_toNat_lt.1 hlt
      obtain ⟨placed, hplaced, hat⟩ := ih hrest hnext hle
      exact ⟨placed, List.mem_cons_of_mem _ hplaced, hat⟩
    · exact ⟨first, List.mem_cons_self, rfl⟩

/-- **The locator of the last block is that of the extended chain.** It asks the chain under the blocks
only for heights below the first. -/
theorem build_extended (hchain : (first :: rest).IsChain PlacedBlock.LeadsTo)
    (hlength : first.height.toNat ≤ c.hashes.length) :
    BlockLocator.build (BatchHeader.across first rest).tip (c.view.withBlocks (first :: rest)) =
      BlockLocator.build (BatchHeader.across first rest).tip
        (c.extended first.height (first :: rest)).view := by
  have htakes : (⟨c.hashes.take first.height.toNat⟩ : HashChain).Takes (first :: rest) :=
    takes_of_isChain hchain (List.length_take_of_le hlength).symm
  refine BlockLocator.build_congr fun height hlt => ?_
  rw [extended, ← htakes.withBlocks_eq]
  unfold ChainView.withBlocks
  cases hfind : (first :: rest).find? (·.height == height) with
  | some placed => rfl
  | none =>
    -- no block of the list is there, so the height is below the first
    have hbelow : height < first.height := by
      by_contra hge
      obtain ⟨placed, hplaced, hat⟩ :=
        exists_mem_of_isChain hchain (UInt32.not_lt.1 hge) (UInt32.le_of_lt hlt)
      exact List.find?_eq_none.1 hfind placed hplaced (beq_iff_eq.2 hat)
    exact (List.getElem?_take_of_lt (UInt32.lt_iff_toNat_lt.1 hbelow)).symm

end HashChain

/-! ## Batches -/

namespace Store

variable {s s' : Store} {scope : Scope} {header : BatchHeader} {chain view : ChainView}

/-- Wallets read a chain for the locator of their tip only. -/
theorem advance_congr_chain
    (h : BlockLocator.build header.tip chain = BlockLocator.build header.tip view) :
    s.advance scope (some header) chain = s.advance scope (some header) view := by
  unfold advance
  dsimp only
  rw [h]

/-- The wallets that move store the locator of the tip. -/
theorem withTip_mem_advance {names : List String}
    (h : s.advance scope (some header) chain = .ok (names, s')) {row : WalletRow}
    (hrow : row ∈ s.wallets) (hcovers : scope.covers row = true) :
    ∃ locator, BlockLocator.build header.tip chain = .ok locator ∧
      row.withTip header.tip locator.hashes ∈ s'.wallets := by
  have hmoving : row ∈ s.wallets.filter scope.covers := List.mem_filter.2 ⟨hrow, hcovers⟩
  unfold advance at h
  dsimp only at h
  split at h
  · rename_i hnone
    rw [hnone] at hmoving
    cases hmoving
  · obtain ⟨locator, hbuild, h⟩ := bind_eq_ok_iff.1 h
    cases h
    refine ⟨locator, hbuild, ?_⟩
    rw [wallets_foldl_setTip]
    refine List.mem_map.2 ⟨row, hrow, if_pos ?_⟩
    exact List.any_eq_true.2 ⟨row, hmoving, beq_self_eq_true row.id⟩

end Store

namespace Indexer

open Store

variable {ix ix' : Indexer} {header : BatchHeader} {chain view : ChainView} {c : HashChain}

theorem processBatch_congr_chain (batch : Batch)
    (h : BlockLocator.build header.tip chain = BlockLocator.build header.tip view) :
    ix.processBatch batch (some header) chain = ix.processBatch batch (some header) view := by
  unfold processBatch applyBatch
  simp only [advance_congr_chain h]

/-- **An accepted list is a batch on the extended chain.** -/
theorem processBlocks_eq (hbound : ∀ placed ∈ first :: rest, placed.height.toNat < UInt32.size - 1)
    (hchain : (first :: rest).IsChain PlacedBlock.LeadsTo)
    (hlength : first.height.toNat ≤ c.hashes.length) :
    ix.processBlocks (first :: rest) c.view =
      ix.processBatch (Batch.ofBlocks (first :: rest)) (some (.across first rest))
        (c.extended first.height (first :: rest)).view := by
  unfold processBlocks
  rw [BatchHeader.ofBlocks_of_isChain hbound hchain]
  exact processBatch_congr_chain _ (HashChain.build_extended hchain hlength)

/-- **A list of one block is the block.** -/
theorem processBlocks_singleton (ix : Indexer) (placed : PlacedBlock) (chain : ChainView) :
    ix.processBlocks [placed] chain = ix.processBlock placed chain := by
  have haccepted : ix.processBlocks [placed] chain = ix.processBatch (Batch.ofBlocks [placed])
      (some ⟨placed.block.prev, placed.ref⟩) (chain.withBlocks [placed]) := rfl
  rw [haccepted, Batch.ofBlocks_singleton]
  exact processBatch_congr_chain _ (HashChain.build_withBlocks_singleton placed chain)

/-- The wallets that a batch advances store the locator of its tip. -/
theorem withTip_of_processBatch {batch : Batch} {outcome : BatchOutcome}
    (h : ix.processBatch batch (some header) chain = .ok (outcome, ix')) {row : WalletRow}
    (hrow : row ∈ ix.store.wallets)
    (hcovers : (Scope.ofBatch ix.config (some header)).covers row = true) :
    ∃ locator, BlockLocator.build header.tip chain = .ok locator ∧
      row.withTip header.tip locator.hashes ∈ ix'.store.wallets := by
  obtain ⟨found, t, names, hrounds, hmoved⟩ := parts_of_applyBatch (applyBatch_of_processBatch h).1
  refine withTip_mem_advance hmoved ?_ hcovers
  have hwallets : (t.matchSpends (Scope.ofBatch ix.config (some header)) batch).2.wallets =
      ix.store.wallets := (frame_rounds hrounds).1
  rw [hwallets]
  exact hrow

end Indexer

namespace Sample

/-- A chain that has other blocks in the place of the two. -/
def stale : HashChain := ⟨[Hash256.zero, hash 7, hash 8]⟩

theorem isChain_blocks :
    [paying, spender].IsChain PlacedBlock.LeadsTo ∧ ¬ [spender, paying].IsChain PlacedBlock.LeadsTo ∧
    ∀ placed ∈ [paying, spender], placed.height.toNat < UInt32.size - 1 := by
  decide +kernel

end Sample

namespace Indexer

open Store

/-- **A list of blocks is accepted if and only if each leads to the next, and is read on the chain that
ends in it.** Another list is refused for the first block that the one before it does not lead to, and
nothing changes. An accepted one advances the wallets in its scope: each of them stores the locator of the
last block on the chain that has the blocks on top of what lies below the first. What the chain has from
there on changes nothing. A list of a single block does on every chain what the block does by itself. -/
theorem block_lists_accepted :
    (∀ first rest, (∀ placed ∈ first :: rest, placed.height.toNat < UInt32.size - 1) →
      ((∃ header, BatchHeader.ofBlocks (first :: rest) = .ok header) ↔
        (first :: rest).IsChain PlacedBlock.LeadsTo) ∧
      (¬ (first :: rest).IsChain PlacedBlock.LeadsTo → ∃ before placed next later,
        first :: rest = before ++ placed :: next :: later ∧
        (before ++ [placed]).IsChain PlacedBlock.LeadsTo ∧ ¬ placed.LeadsTo next ∧
        BatchHeader.ofBlocks (first :: rest) =
          .error (.nonContiguousBatch next.height next.block.hash) ∧
        ∀ (ix : Indexer) chain, ix.processBlocks (first :: rest) chain =
            .error (.nonContiguousBatch next.height next.block.hash) ∧
          ix.after (.processBlocks (first :: rest) chain) = ix) ∧
      ((first :: rest).IsChain PlacedBlock.LeadsTo → ∀ (ix : Indexer) (base : HashChain),
        first.height.toNat ≤ base.hashes.length →
        (∀ outcome ix', ix.processBlocks (first :: rest) base.view = .ok (outcome, ix') →
          outcome.advanced = (ix.store.wallets.filter
            (Scope.ofBatch ix.config (some (.across first rest))).covers).map (·.name) ∧
          ∀ row ∈ ix.store.wallets,
            (Scope.ofBatch ix.config (some (.across first rest))).covers row = true →
            ∃ locator, BlockLocator.build (BatchHeader.across first rest).tip
                (base.extended first.height (first :: rest)).view = .ok locator ∧
              row.withTip (BatchHeader.across first rest).tip locator.hashes ∈ ix'.store.wallets) ∧
        ∀ other : HashChain,
          other.hashes.take first.height.toNat = base.hashes.take first.height.toNat →
          ix.processBlocks (first :: rest) other.view = ix.processBlocks (first :: rest) base.view)) ∧
    ∀ (ix : Indexer) placed chain, ix.processBlocks [placed] chain = ix.processBlock placed chain := by
  refine ⟨fun first rest hbound => ⟨⟨fun ⟨header, hok⟩ => ?_, fun hchain => ?_⟩, fun hchain => ?_,
    fun hchain ix base hlength => ⟨fun outcome ix' h => ?_, fun other hsame => ?_⟩⟩,
    processBlocks_singleton⟩
  · by_contra hchain
    obtain ⟨before, placed, next, later, -, -, -, herror⟩ :=
      BatchHeader.ofBlocks_of_not_isChain hbound hchain
    rw [hok] at herror
    cases herror
  · exact ⟨_, BatchHeader.ofBlocks_of_isChain hbound hchain⟩
  · obtain ⟨before, placed, next, later, heq, hbefore, hbreak, herror⟩ :=
      BatchHeader.ofBlocks_of_not_isChain hbound hchain
    refine ⟨before, placed, next, later, heq, hbefore, hbreak, herror, fun ix chain => ?_⟩
    have hrefused : ix.processBlocks (first :: rest) chain =
        .error (.nonContiguousBatch next.height next.block.hash) := by
      unfold processBlocks
      rw [herror]
    refine ⟨hrefused, ?_⟩
    rw [after, perform, hrefused]
    rfl
  · rw [processBlocks_eq hbound hchain hlength] at h
    exact ⟨advanced_of_applyBatch (applyBatch_of_processBatch h).1,
      fun row hrow hcovers => withTip_of_processBatch h hrow hcovers⟩
  · -- both chains are extended to the same one
    have hother : first.height.toNat ≤ other.hashes.length := by
      have hlengths := congrArg List.length hsame
      rw [List.length_take, List.length_take] at hlengths
      omega
    rw [processBlocks_eq hbound hchain hlength, processBlocks_eq hbound hchain hother,
      HashChain.extended, HashChain.extended, hsame]

/-- The two blocks are processed in the place of stale ones, and are refused in the other order. -/
theorem block_lists_accepted_stale :
    (∃ outcome ix', (Sample.opened Sample.unbuffered).processBlocks [Sample.paying, Sample.spender]
        Sample.stale.view = .ok (outcome, ix') ∧
      ∃ locator, BlockLocator.build Sample.spender.ref
          (Sample.stale.extended 1 [Sample.paying, Sample.spender]).view = .ok locator ∧
        ∃ row ∈ Sample.store.wallets,
          row.withTip Sample.spender.ref locator.hashes ∈ ix'.store.wallets) ∧
    ∀ chain, (Sample.opened Sample.unbuffered).processBlocks [Sample.spender, Sample.paying] chain =
      .error (.nonContiguousBatch 1 Sample.paying.block.hash) := by
  obtain ⟨hchain, hunchained, hbound⟩ := Sample.isChain_blocks
  obtain ⟨⟨outcome, ix'⟩, honce, -⟩ := map_eq_ok_iff.1 Sample.processBlocks_once
  have hlists := block_lists_accepted.1
  constructor
  · obtain ⟨-, -, haccepted⟩ := hlists Sample.paying [Sample.spender] hbound
    obtain ⟨-, hsame⟩ := haccepted hchain (Sample.opened Sample.unbuffered) Sample.below (by decide)
    have hstale := (hsame Sample.stale rfl).trans honce
    obtain ⟨hadvances, -⟩ :=
      haccepted hchain (Sample.opened Sample.unbuffered) Sample.stale (by decide)
    obtain ⟨locator, hbuild, hmem⟩ :=
      (hadvances outcome ix' hstale).2 _ List.mem_cons_self (by decide)
    exact ⟨outcome, ix', hstale, locator, hbuild, _, List.mem_cons_self, hmem⟩
  · have hbound' : ∀ placed ∈ [Sample.spender, Sample.paying],
        placed.height.toNat < UInt32.size - 1 := fun placed hplaced =>
      hbound placed ((List.reverse_perm [Sample.paying, Sample.spender]).mem_iff.1 hplaced)
    obtain ⟨-, hrefused, -⟩ := hlists Sample.spender [Sample.paying] hbound'
    obtain ⟨before, placed, next, later, heq, -, -, -, hcalls⟩ := hrefused hunchained
    have hnext : next = Sample.paying := by
      cases before with
      | nil =>
        cases heq
        rfl
      | cons first before =>
        have hlength := congrArg List.length heq
        simp only [List.length_append, List.length_cons, List.length_nil] at hlength
        omega
    rw [hnext] at hcalls
    exact fun chain => (hcalls (Sample.opened Sample.unbuffered) chain).1

end Indexer

end WalletLedger
