import WalletLedger.Proofs.Advance
import WalletLedger.Proofs.Closure

/-!
# What can stop a batch

In a store that calls have built, every account and every index that matching asks for is there, and no
address is derived twice. So a batch is refused in two cases only: a key cannot be derived, or the chain
ends below the parent of the new tip.

* `RefusedFor`: the causes that a step is refused for.
* `BlockLocator.build_eq_error_iff`: when a locator cannot be built from a chain, and what is reported.
* `Store.refusedFor_matchDeposits`: matching deposits is refused for failed derivations only.
* `Indexer.batch_refusals`: when a batch is refused, and with what.
-/

namespace WalletLedger

/-- A step is refused for causes of one kind only. -/
def RefusedFor {ε α : Type} (kind : ε → Prop) (x : Except ε α) : Prop := ∀ e, x = .error e → kind e

/-- A refused derivation. -/
def Error.IsDerivation (e : Error) : Prop := ∃ cause, e = .derivation cause

section

variable {ε α β : Type} {kind : ε → Prop}

theorem refusedFor_ok (a : α) : RefusedFor kind (.ok a) := nofun

theorem RefusedFor.bind {x : Except ε α} {f : α → Except ε β} (hx : RefusedFor kind x)
    (hf : ∀ a, x = .ok a → RefusedFor kind (f a)) : RefusedFor kind (x >>= f) := by
  intro e h
  rcases bind_eq_error_iff.1 h with h | ⟨a, ha, h⟩
  · exact hx e h
  · exact hf a ha e h

/-- What is refused only for causes that do not arise succeeds. -/
theorem RefusedFor.exists_ok {x : Except ε α} (hx : RefusedFor kind x)
    (hnone : ∀ e, kind e → x ≠ .error e) : ∃ a, x = .ok a := by
  cases x with
  | ok a => exact ⟨a, rfl⟩
  | error e => exact absurd rfl (hnone e (hx e rfl))

theorem refusedFor_ofDerivation (x : Except DerivationError α) :
    RefusedFor Error.IsDerivation (Result.ofDerivation x) := by
  intro e h
  cases x with
  | ok a => cases h
  | error cause =>
    cases h
    exact ⟨cause, rfl⟩

end

/-! ## Reading the chain -/

/-- A locator above height zero names its own height and the one below first. -/
theorem locatorHeights_of_pos {height : UInt32} (h : 0 < height.toNat) :
    ∃ rest, locatorHeights height = height :: (height - 1) :: rest := by
  have hone : (1 : UInt32) ≤ height := UInt32.le_iff_toNat_le.2 h
  have hbelow : UInt32.ofNat (height.toNat - 1) = height - 1 := by
    rw [← UInt32.toNat_inj, UInt32.toNat_sub_of_le _ _ hone, UInt32.toNat_ofNat_of_lt']
    · rfl
    · exact Nat.lt_of_le_of_lt (Nat.sub_le _ _) height.toNat_lt_size
  have hself : UInt32.ofNat height.toNat = height := UInt32.ofNat_toNat
  have hwalk : ∃ rest, locatorWalk 1 (height.toNat - 1) = (height.toNat - 1) :: rest := by
    rw [locatorWalk]
    split
    · rename_i hzero
      exact ⟨[], by rw [hzero]⟩
    · exact ⟨_, rfl⟩
  obtain ⟨rest, hrest⟩ := hwalk
  refine ⟨rest.map UInt32.ofNat, ?_⟩
  have hstride : locatorStride 0 = 1 := rfl
  rw [locatorHeights, locatorWalk, if_neg (Nat.pos_iff_ne_zero.1 h), hstride, hrest, List.map_cons,
    List.map_cons, hself, hbelow]

/-- **A locator cannot be built** from a chain that ends below the parent of the block, and then the
height of the parent is missing. -/
theorem BlockLocator.build_eq_error_iff {tip : BlockRef} {c : HashChain} {e : Error} :
    BlockLocator.build tip c.view = .error e ↔
      c.hashes.length < tip.height.toNat ∧ e = .blockNotFound (tip.height - 1) := by
  by_cases hshort : c.hashes.length < tip.height.toNat
  · -- the height below the tip is read first
    obtain ⟨rest, hrest⟩ := locatorHeights_of_pos (Nat.zero_lt_of_lt hshort)
    have hone : (1 : UInt32) ≤ tip.height := UInt32.le_iff_toNat_le.2 (Nat.zero_lt_of_lt hshort)
    have hbelow : (tip.height - 1).toNat = tip.height.toNat - 1 := UInt32.toNat_sub_of_le _ _ hone
    have hmissing : c.view (tip.height - 1) = none := by
      refine List.getElem?_eq_none ?_
      rw [hbelow]
      exact Nat.le_sub_one_of_lt hshort
    have hne : tip.height - 1 ≠ tip.height := by
      intro heq
      rw [heq] at hbelow
      omega
    have hbuild : build tip c.view = .error (.blockNotFound (tip.height - 1)) := by
      rw [build, hrest, List.mapM_cons, List.mapM_cons, ancestor, ancestor, if_pos rfl, if_neg hne,
        hmissing]
      rfl
    rw [hbuild, Except.error.injEq]
    exact ⟨fun h => ⟨hshort, h.symm⟩, fun h => h.2.symm⟩
  · have hall : ∀ height ∈ locatorHeights tip.height,
        ∃ hash, ancestor tip c.view height = .ok hash := by
      intro height hmem
      unfold ancestor
      split
      · exact ⟨_, rfl⟩
      · rename_i hne
        have hlt := UInt32.lt_iff_toNat_lt.1
          (UInt32.lt_of_le_of_ne (le_of_mem_locatorHeights hmem) hne)
        have hview : c.view height = some c.hashes[height.toNat] := List.getElem?_eq_getElem (by omega)
        rw [hview]
        exact ⟨_, rfl⟩
    obtain ⟨hashes, hhashes⟩ := exists_mapM_eq_ok hall
    rw [build, hhashes]
    exact ⟨(nomatch ·), fun h => absurd h.1 hshort⟩

namespace Store

variable {s : Store} {g : AddressGroup} {buffer : UInt64} {scope : Scope}

/-- Moving the wallets in scope reads the chain, if there are any. -/
theorem advance_eq_error_iff {header : Option BatchHeader} {c : HashChain} {e : Error} :
    s.advance scope header c.view = .error e ↔ ∃ header', header = some header' ∧
      (∃ w ∈ s.wallets, scope.covers w = true) ∧ c.hashes.length < header'.tip.height.toNat ∧
      e = .blockNotFound (header'.tip.height - 1) := by
  cases header with
  | none => exact ⟨(nomatch ·), fun ⟨_, h, _⟩ => nomatch h⟩
  | some header =>
    have hmoving : s.wallets.filter scope.covers ≠ [] ↔ ∃ w ∈ s.wallets, scope.covers w = true := by
      simp only [ne_eq, List.filter_eq_nil_iff, not_forall, not_not, exists_prop]
    simp only [Option.some.injEq, exists_eq_left', ← hmoving]
    unfold advance
    dsimp only
    split
    · rename_i hnone
      exact ⟨(nomatch ·), fun h => absurd hnone h.1⟩
    · rename_i hsome
      rw [bind_eq_error_iff, BlockLocator.build_eq_error_iff]
      constructor
      · rintro (h | ⟨locator, -, h⟩)
        · exact ⟨hsome, h⟩
        · cases h
      · rintro ⟨-, h⟩
        exact .inl h

/-! ## Extending pools -/

/-- Addresses can be appended unless one cannot be derived, if their indexes follow those that the pool
has. -/
theorem refusedFor_appendAddresses {key : ExtendedKey} {index count : Nat}
    (hindex : ∀ a ∈ s.pool g, a.id.index.toNat < index) :
    RefusedFor Error.IsDerivation (appendAddresses key g index count s) := by
  induction count generalizing index s with
  | zero => exact refusedFor_ok _
  | succ count ih =>
    unfold appendAddresses
    refine (refusedFor_ofDerivation _).bind fun scripts hscripts => ?_
    have hlimit : ExtendedKey.numberLimit < UInt32.size := by decide
    have hlt := (ExtendedKey.scripts_derive (mapError_eq_ok_iff.1 hscripts)).2.1
    have hindex' : (UInt32.ofNat index).toNat = index := UInt32.toNat_ofNat_of_lt' (by omega)
    have hfresh : s.addresses.any (·.id == ⟨g, UInt32.ofNat index⟩) = false := by
      rw [List.any_eq_false]
      intro a ha hid
      rw [beq_iff_eq] at hid
      have hbelow := hindex a (List.mem_filter.2 ⟨ha, by rw [hid, beq_self_eq_true]⟩)
      rw [hid, hindex'] at hbelow
      exact Nat.lt_irrefl _ hbelow
    have hinsert : s.insertAddress ⟨⟨g, UInt32.ofNat index⟩, scripts⟩ =
        .ok { s with addresses := s.addresses ++ [⟨⟨g, UInt32.ofNat index⟩, scripts⟩] } := by
      rw [insertAddress, hfresh]
      rfl
    dsimp only
    rw [hinsert]
    refine (refusedFor_ok _).bind fun m hm => ?_
    cases hm
    refine RefusedFor.bind (ih fun a ha => ?_) fun _ _ => refusedFor_ok _
    -- the address just inserted has the last index
    rw [pool_append, List.mem_append] at ha
    rcases ha with ha | ha
    · exact Nat.lt_succ_of_lt (hindex a ha)
    · rw [List.mem_singleton.1 (List.mem_filter.1 ha).1, hindex']
      exact Nat.lt_succ_self _

theorem refusedFor_extendPool (hs : s.Numbered) (hg : s.HasPool g) :
    RefusedFor Error.IsDerivation (s.extendPool g buffer) := by
  unfold extendPool
  split
  · exact refusedFor_ok _
  · split
    · rename_i hnone
      obtain ⟨-, account, haccount, hwallet, hindex⟩ := hg
      have hother := List.find?_eq_none.1 hnone account haccount
      simp [hwallet, hindex] at hother
    · refine (refusedFor_ofDerivation _).bind fun key _ => refusedFor_appendAddresses fun a ha => ?_
      rw [hs.toNat_addressCount]
      exact index_lt_poolSize (hs.index g) ha

/-- Pools of accounts that exist can be extended unless an address cannot be derived. -/
theorem refusedFor_extendPools {gs : List AddressGroup} (hs : s.Numbered)
    (hgs : ∀ g ∈ gs, s.HasPool g) : RefusedFor Error.IsDerivation (extendPools buffer gs s) := by
  induction gs generalizing s with
  | nil => exact refusedFor_ok _
  | cons g gs ih =>
    refine (refusedFor_extendPool hs (hgs g List.mem_cons_self)).bind fun answer hanswer => ?_
    obtain ⟨created, m⟩ := answer
    have hacc : m.accounts = s.accounts := by rw [eq_of_extendPool hanswer]
    have hrest := ih (numbered_of_extendPool hs hanswer) fun g' hg' =>
      (hasPool_congr hacc).2 (hgs g' (List.mem_cons_of_mem _ hg'))
    exact hrest.bind fun _ _ => refusedFor_ok _

/-! ## Batches -/

/-- The pools that a round extends are those of accounts that exist. -/
theorem refusedFor_round {outputs : List StagedOutput} {pools : List AddressGroup}
    {applied : List LedgerKey} {new : List Deposit} (hs : s.Built)
    (hnew : new = s.newDeposits scope outputs applied) : RefusedFor Error.IsDerivation
      (extendPools buffer (s.touchedPools pools new) (recordAll new s).2) := by
  have hdue : ∀ d ∈ new, s.IsDue scope outputs d := by
    intro d hd
    rw [hnew] at hd
    exact (isDue_of_mem_newDeposits hd).1
  refine refusedFor_extendPools (hs.numbered.congr (addresses_recordAll new s)) fun g hg => ?_
  obtain ⟨a, ha, rfl⟩ := group_of_mem_touchedPools hdue hg
  exact (hasPool_congr (accounts_recordAll new s)).2 (hs.wellFormed.hasPool ha)

/-- **Matching deposits is refused for failed derivations only**, by the step above and the invariant
that each round leaves a store as calls build it. -/
theorem refusedFor_matchDeposits {outputs : List StagedOutput} {pools : List AddressGroup}
    {applied : List LedgerKey} (hs : s.Built) :
    RefusedFor Error.IsDerivation (s.matchDeposits scope buffer outputs pools applied) := by
  fun_induction matchDeposits scope buffer outputs pools applied s with
  | case1 applied s new => exact refusedFor_ok _
  | case2 applied s new hsome recorded e hextend =>
    intro e' he
    cases he
    exact refusedFor_round hs rfl e hextend
  | case3 applied s new hsome recorded extended hextend => exact refusedFor_ok _
  | case4 applied s new hsome recorded a created extended hextend e hrest ih =>
    have hextended : extended.Built :=
      ⟨wellFormed_round hs.wellFormed rfl hextend,
        numbered_of_extendPools (hs.numbered.congr (addresses_recordAll new s)) hextend⟩
    intro e' he
    cases he
    exact ih hextended e hrest
  | case5 => exact refusedFor_ok _

/-- A batch is refused while it matches deposits or while it moves the wallets in its scope. -/
theorem applyBatch_eq_error_iff {config : Config} {batch : Batch} {header : Option BatchHeader}
    {c : HashChain} {e : Error} :
    s.applyBatch config batch header c.view = .error e ↔
      s.matchDeposits (Scope.ofBatch config header) config.topUpBuffer batch.outputs s.pools [] =
          .error e ∨
        (∃ answer, s.matchDeposits (Scope.ofBatch config header) config.topUpBuffer batch.outputs
          s.pools [] = .ok answer) ∧
        ∃ header', header = some header' ∧
          (∃ w ∈ s.wallets, (Scope.ofBatch config header).covers w = true) ∧
          c.hashes.length < header'.tip.height.toNat ∧ e = .blockNotFound (header'.tip.height - 1) := by
  unfold applyBatch
  rw [bind_eq_error_iff]
  refine or_congr_right ⟨?_, ?_⟩
  · rintro ⟨⟨found, d⟩, hmatched, h⟩
    rcases bind_eq_error_iff.1 h with h | ⟨moved, -, h⟩
    · rw [advance_eq_error_iff] at h
      -- matching deposits leaves the wallets alone
      rw [← (frame_rounds (rounds_of_matchDeposits hmatched)).1]
      exact ⟨⟨_, hmatched⟩, h⟩
    · cases h
  · rintro ⟨⟨⟨found, d⟩, hmatched⟩, h⟩
    refine ⟨(found, d), hmatched, bind_eq_error_iff.2 (.inl ?_)⟩
    rw [advance_eq_error_iff]
    rw [← (frame_rounds (rounds_of_matchDeposits hmatched)).1] at h
    exact h

end Store

namespace Sample

/-- A header that takes the wallet from its start to a block far above. -/
def far : BatchHeader := ⟨Hash256.zero, ⟨5, hash 1⟩⟩

end Sample

namespace Indexer

open Store

variable {ix : Indexer} {batch : Batch} {header : Option BatchHeader}

theorem Reachable.built (h : ix.Reachable) : ix.store.Built := by
  obtain ⟨calls, past, hist⟩ := h
  have hbuilt := built_of_history hist ix List.mem_cons_self ix.network
  rwa [storeOf_network] at hbuilt

theorem processBatch_eq_error_iff {view : ChainView} {e : Error} :
    ix.processBatch batch header view = .error e ↔
      ix.store.applyBatch ix.config batch header view = .error e := by
  unfold processBatch
  rw [bind_eq_error_iff]
  constructor
  · rintro (h | ⟨answer, -, h⟩)
    · exact h
    · cases h
  · exact .inl

/-- Some wallet takes part if and only if some wallet is in scope. -/
theorem exists_takesPart_iff : (∃ wallet, ix.TakesPart header wallet) ↔
    ∃ w ∈ ix.store.wallets, (Scope.ofBatch ix.config header).covers w = true := by
  simp only [← inScope_iff, inScope, List.any_eq_true, Bool.and_eq_true, beq_iff_eq]
  constructor
  · rintro ⟨-, w, hw, -, hcovers⟩
    exact ⟨w, hw, hcovers⟩
  · rintro ⟨w, hw, hcovers⟩
    exact ⟨w.id, w, hw, rfl, hcovers⟩

/-- **Only two errors can stop a batch.** Whatever calls came before, a batch over a chain held in
memory is refused because an address cannot be derived or because a block is not found. Where every
derivation succeeds, it is refused if and only if it has a header, some wallet that the mode allows is
synced to the parent, and the chain ends below the parent of the tip; then the height of that parent is
reported. -/
theorem batch_refusals (hreach : ix.Reachable) (batch : Batch) (header : Option BatchHeader)
    (chain : HashChain) :
    (∀ e, ix.processBatch batch header chain.view = .error e →
      (∃ cause, e = .derivation cause) ∨ ∃ height, e = .blockNotFound height) ∧
    ((∀ cause, ix.processBatch batch header chain.view ≠ .error (.derivation cause)) →
      ∀ e, ix.processBatch batch header chain.view = .error e ↔
        ∃ header', header = some header' ∧ (∃ wallet, ix.TakesPart header wallet) ∧
          chain.hashes.length < header'.tip.height.toNat ∧
          e = .blockNotFound (header'.tip.height - 1)) := by
  have hmatching : RefusedFor Error.IsDerivation (ix.store.matchDeposits (Scope.ofBatch ix.config header)
      ix.config.topUpBuffer batch.outputs ix.store.pools []) := refusedFor_matchDeposits hreach.built
  have hrefused : ∀ e, ix.processBatch batch header chain.view = .error e ↔ _ := fun e =>
    processBatch_eq_error_iff.trans applyBatch_eq_error_iff
  constructor
  · intro e h
    rcases (hrefused e).1 h with h | ⟨-, header', -, -, -, he⟩
    · exact .inl (hmatching e h)
    · exact .inr ⟨_, he⟩
  · intro hderived e
    -- matching deposits succeeds, so that only the chain is left to stop the batch
    have hmatched := hmatching.exists_ok fun e' he' h => by
      obtain ⟨cause, rfl⟩ := he'
      exact hderived cause ((hrefused _).2 (.inl h))
    rw [exists_takesPart_iff, hrefused e]
    constructor
    · rintro (h | ⟨-, h⟩)
      · obtain ⟨answer, hanswer⟩ := hmatched
        rw [hanswer] at h
        cases h
      · exact h
    · intro h
      exact .inr ⟨hmatched, h⟩

/-- A batch that pays the wallet and would take it above the end of the chain. -/
theorem batch_refusals_missing : ∃ ix : Indexer, ix.Reachable ∧
    ix.processBatch (Batch.ofBlock Sample.paying) (some Sample.far) (HashChain.view ⟨[Hash256.zero]⟩) =
      .error (.blockNotFound 4) := by
  obtain ⟨past, hist, -⟩ := Sample.history Sample.unbuffered
  have hreach : (Sample.opened Sample.unbuffered).Reachable := ⟨_, past, hist⟩
  obtain ⟨-, hexact⟩ :=
    batch_refusals hreach (Batch.ofBlock Sample.paying) (some Sample.far) ⟨[Hash256.zero]⟩
  have hmatched : ((Sample.opened Sample.unbuffered).processBatch (Batch.ofBlock Sample.paying)
      (some Sample.far) (HashChain.view ⟨[Hash256.zero]⟩)).map (·.1) = .error (.blockNotFound 4) := by
    decide +kernel
  have hderived : ∀ cause, (Sample.opened Sample.unbuffered).processBatch
      (Batch.ofBlock Sample.paying) (some Sample.far) (HashChain.view ⟨[Hash256.zero]⟩) ≠
        .error (.derivation cause) := by
    intro cause h
    rw [h] at hmatched
    cases hmatched
  refine ⟨_, hreach, (hexact hderived _).2 ⟨_, rfl, ⟨1, _, List.mem_cons_self, rfl, nofun, ?_⟩, ?_, rfl⟩⟩
  · rintro header' ⟨⟩
    rfl
  · decide

end Indexer

end WalletLedger
