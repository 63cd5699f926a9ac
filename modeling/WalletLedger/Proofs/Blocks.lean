import WalletLedger.Proofs.Payments
import WalletLedger.Proofs.Settling

/-!
# One batch of blocks or one block at a time

Blocks may be processed one by one or together. A batch of them matches all outputs before it records
any spend and moves the wallets once, block by block these alternate. Both settle the store in the
same way, as long as no block reaches into a later one.

* `Batch.Precedes`: what is seen first and does not reach into what is seen later.
* `Store.Settles.trans`: settling two batches, one after the other, is settling them together.
* `Indexer.Poised`: where a run of blocks stands, the step lemma being `Indexer.Poised.processBlock`.
* `Indexer.blocks_agree_with_batch`: the two runs end alike.
-/

namespace WalletLedger

namespace Batch

/-- A batch that spends nothing a later one brings or spends, and shares no transaction with it. -/
structure Precedes (first rest : Batch) : Prop where
  later : ∀ sp ∈ first.spends, ∀ o ∈ rest.outputs, sp.prevOut ≠ o.outpoint
  apart : ∀ sp ∈ first.spends, ∀ sp' ∈ rest.spends, sp.prevOut ≠ sp'.prevOut
  named : ∀ sp ∈ first.spends, ∀ o ∈ rest.outputs, o.outpoint.txid ≠ sp.txid
  named' : ∀ sp ∈ rest.spends, ∀ o ∈ first.outputs, o.outpoint.txid ≠ sp.txid

theorem outputs_concat_pair (first rest : Batch) :
    (concat [first, rest]).outputs = first.outputs ++ rest.outputs := by
  simp [concat]

theorem spends_concat_pair (first rest : Batch) :
    (concat [first, rest]).spends = first.spends ++ rest.spends := by
  simp [concat]

theorem ofBlocks_singleton (placed : PlacedBlock) : ofBlocks [placed] = ofBlock placed := by
  simp [ofBlocks, concat]

theorem ofBlocks_cons (placed : PlacedBlock) (rest : List PlacedBlock) :
    ofBlocks (placed :: rest) = concat [ofBlock placed, ofBlocks rest] := by
  rw [← ofBlocks_singleton placed, ← ofBlocks_append, List.singleton_append]

theorem mem_outputs_ofBlocks {blocks : List PlacedBlock} {o : StagedOutput} :
    o ∈ (ofBlocks blocks).outputs ↔ ∃ placed ∈ blocks, o ∈ (ofBlock placed).outputs := by
  simp [ofBlocks, concat]

theorem mem_spends_ofBlocks {blocks : List PlacedBlock} {sp : StagedSpend} :
    sp ∈ (ofBlocks blocks).spends ↔ ∃ placed ∈ blocks, sp ∈ (ofBlock placed).spends := by
  simp [ofBlocks, concat]

/-- Blocks of a list precede one another if they share no transaction, nothing is spent twice and
nothing is spent before it is there. -/
theorem pairwise_precedes {blocks : List PlacedBlock}
    (hdistinct : blocks.Pairwise fun a b =>
      ∀ tx ∈ a.block.transactions, ∀ tx' ∈ b.block.transactions, tx.txid ≠ tx'.txid)
    (hagree : (ofBlocks blocks).SpendsAgree)
    (hlater : blocks.Pairwise fun a b =>
      ∀ sp ∈ (ofBlock a).spends, ∀ o ∈ (ofBlock b).outputs, sp.prevOut ≠ o.outpoint) :
    blocks.Pairwise fun a b => (ofBlock a).Precedes (ofBlock b) := by
  refine (hdistinct.and hlater).imp_of_mem ?_
  rintro a b ha hb ⟨htxids, hlater⟩
  have hfrom : ∀ placed : PlacedBlock,
      (ofBlock placed).FromTransactions (· ∈ placed.block.transactions) :=
    fun _ => fromTransactions_ofBlock fun _ htx => htx
  refine ⟨hlater, fun sp hsp sp' hsp' hprev => ?_, fun sp hsp o ho hname => ?_,
    fun sp hsp o ho hname => ?_⟩
  · -- one spend cannot be of two transactions
    have hsame := hagree sp (mem_spends_ofBlocks.2 ⟨a, ha, hsp⟩) sp'
      (mem_spends_ofBlocks.2 ⟨b, hb, hsp'⟩) hprev
    obtain ⟨tx, htx, htxid, -⟩ := (hfrom a).spends sp hsp
    obtain ⟨tx', htx', htxid', -⟩ := (hfrom b).spends sp' hsp'
    exact htxids tx htx tx' htx' (by rw [htxid, htxid', hsame])
  · obtain ⟨tx, htx, htxid, -⟩ := (hfrom a).spends sp hsp
    obtain ⟨tx', htx', htxid', -⟩ := (hfrom b).outputs o ho
    exact htxids tx htx tx' htx' (by rw [htxid, htxid', hname])
  · obtain ⟨tx, htx, htxid, -⟩ := (hfrom a).outputs o ho
    obtain ⟨tx', htx', htxid', -⟩ := (hfrom b).spends sp hsp
    exact htxids tx htx tx' htx' (by rw [htxid, htxid', hname])

/-- What precedes every block of a list precedes their batch. -/
theorem precedes_ofBlocks {first : Batch} {blocks : List PlacedBlock}
    (h : ∀ placed ∈ blocks, first.Precedes (ofBlock placed)) : first.Precedes (ofBlocks blocks) := by
  refine ⟨fun sp hsp o ho => ?_, fun sp hsp sp' hsp' => ?_, fun sp hsp o ho => ?_,
    fun sp hsp o ho => ?_⟩
  · obtain ⟨placed, hplaced, ho⟩ := mem_outputs_ofBlocks.1 ho
    exact (h placed hplaced).later sp hsp o ho
  · obtain ⟨placed, hplaced, hsp'⟩ := mem_spends_ofBlocks.1 hsp'
    exact (h placed hplaced).apart sp hsp sp' hsp'
  · obtain ⟨placed, hplaced, ho⟩ := mem_outputs_ofBlocks.1 ho
    exact (h placed hplaced).named sp hsp o ho
  · obtain ⟨placed, hplaced, hsp⟩ := mem_spends_ofBlocks.1 hsp
    exact (h placed hplaced).named' sp hsp o ho

end Batch

/-! ## One holding -/

namespace Holding

variable {part : Int → Bool} {first rest batch batch' : Batch} {h : Holding}

/-- What a spent row becomes depends on its own spends and on the outputs beside them. -/
theorem spent_eq (hspends : h.row.spendsIn batch.spends = h.row.spendsIn batch'.spends)
    (houtputs : ∀ sp ∈ h.row.spendsIn batch'.spends,
      batch.outputs.filter (·.outpoint.txid == sp.txid) =
        batch'.outputs.filter (·.outpoint.txid == sp.txid)) : h.spent batch = h.spent batch' := by
  have hrow : h.row.spendBy batch.spends = h.row.spendBy batch'.spends := by
    unfold LedgerRow.spendBy
    rw [hspends]
  have hpayments : h.row.paymentsIn batch = h.row.paymentsIn batch' := by
    unfold LedgerRow.paymentsIn
    rw [hspends]
    refine List.flatMap_congr fun sp hsp => ?_
    rw [houtputs sp hsp]
  rw [spent, spent, hrow, hpayments]

/-- A spend in a block is confirmed. -/
theorem isConfirmed_spent {ref : BlockRef} (hseen : batch.IsAt ref)
    (hne : h.row.spendsIn batch.spends ≠ []) : (h.spent batch).row.spend.isConfirmed = true := by
  obtain ⟨sp, hlast⟩ : ∃ sp, (h.row.spendsIn batch.spends).getLast? = some sp :=
    ⟨_, List.getLast?_eq_some_getLast hne⟩
  have hmem := (List.mem_filter.1 (List.mem_of_getLast? hlast)).1
  have hspend : (h.spent batch).row.spend = SpendSide.ofSpend sp := by
    rw [spent, LedgerRow.spendBy, hlast]
  rw [hspend, SpendSide.isConfirmed, SpendSide.ofSpend, hseen.2 sp hmem]
  rfl

/-- **Spends of two batches**, one after the other, are those of both together. -/
theorem spendIn_spendIn {ref : BlockRef} (hseen : first.IsAt ref) (hprec : first.Precedes rest)
    (part : Int → Bool) (h : Holding) :
    (h.spendIn part first).spendIn part rest = h.spendIn part (.concat [first, rest]) := by
  have hsplit : h.row.spendsIn (Batch.concat [first, rest]).spends =
      h.row.spendsIn first.spends ++ h.row.spendsIn rest.spends := by
    rw [Batch.spends_concat_pair]
    exact List.filter_append _ _
  by_cases hfirst : h.row.spendsIn first.spends = []
  · -- the first batch leaves the row
    have hnot : ¬ h.isSpentIn part first = true := fun hhit => (isSpentIn_iff.1 hhit).2.2 hfirst
    rw [hfirst, List.nil_append] at hsplit
    have hsame : h.isSpentIn part (.concat [first, rest]) = h.isSpentIn part rest := by
      rw [isSpentIn, isSpentIn, hsplit]
    have hspent : h.spent (.concat [first, rest]) = h.spent rest := by
      refine spent_eq hsplit fun sp hsp => ?_
      have hnil : first.outputs.filter (·.outpoint.txid == sp.txid) = [] := by
        refine List.filter_eq_nil_iff.2 fun o ho hname => ?_
        exact hprec.named' sp (List.mem_filter.1 hsp).1 o ho (beq_iff_eq.1 hname)
      rw [Batch.outputs_concat_pair, List.filter_append, hnil, List.nil_append]
    rw [spendIn_of_not hnot, spendIn, spendIn, hsame, hspent]
  · -- the first batch spends the output, so the other does not
    have hrest : h.row.spendsIn rest.spends = [] := by
      obtain ⟨sp, hsp⟩ := List.exists_mem_of_ne_nil _ hfirst
      obtain ⟨hmem, htxid, hvout⟩ := prevOut_of_mem_spendsIn hsp
      refine List.eq_nil_iff_forall_not_mem.2 fun sp' hsp' => ?_
      obtain ⟨hmem', htxid', hvout'⟩ := prevOut_of_mem_spendsIn hsp'
      exact hprec.apart sp hmem sp' hmem'
        (OutPoint.eq_of_bytes (htxid.trans htxid'.symm) (hvout.trans hvout'.symm))
    rw [hrest, List.append_nil] at hsplit
    have hsame : h.isSpentIn part (.concat [first, rest]) = h.isSpentIn part first := by
      rw [isSpentIn, isSpentIn, hsplit]
    have hspent : h.spent (.concat [first, rest]) = h.spent first := by
      refine spent_eq hsplit fun sp hsp => ?_
      have hnil : rest.outputs.filter (·.outpoint.txid == sp.txid) = [] := by
        refine List.filter_eq_nil_iff.2 fun o ho hname => ?_
        exact hprec.named sp (List.mem_filter.1 hsp).1 o ho (beq_iff_eq.1 hname)
      rw [Batch.outputs_concat_pair, List.filter_append, hnil, List.append_nil]
    have hagain : (h.spendIn part first).spendIn part rest = h.spendIn part first := by
      by_cases hhit : h.isSpentIn part first = true
      · rw [spendIn_of_spent hhit]
        refine spendIn_of_not fun hhit' => ?_
        rw [isSpentIn_iff, isConfirmed_spent hseen hfirst] at hhit'
        cases hhit'.2.1
      · rw [spendIn_of_not hhit]
        exact spendIn_of_not fun hhit' => (isSpentIn_iff.1 hhit').2.2 hrest
    rw [hagain, spendIn, spendIn, hsame, hspent]

end Holding

/-! ## Deposits of two batches -/

/-- A confirmed deposit is there to stay: what is due later is due only if nothing was due before. -/
theorem receive_or {a? r? : Option Deposit} (held : Option Holding)
    (hconf : ∀ d, a? = some d → d.side.isConfirmed = true) :
    receive r? (receive a? held) = receive (a?.or r?) held := by
  cases a? with
  | none => rfl
  | some d =>
    obtain ⟨h, hreceived, hh⟩ : ∃ h : Holding,
        receive (some d) held = some h ∧ h.row.deposit.isConfirmed = true := by
      cases held with
      | none => exact ⟨_, rfl, hconf d rfl⟩
      | some h =>
        refine ⟨_, rfl, ?_⟩
        unfold Holding.restage
        split
        · assumption
        · exact hconf d rfl
    rw [Option.some_or, hreceived]
    cases r? with
    | none => rfl
    | some r => rw [receive, Holding.restage, if_pos hh]

/-- What is held under a key has the key. -/
theorem key_of_receive {d? : Option Deposit} {held : Option Holding} {k : LedgerKey}
    (hd : ∀ d, d? = some d → d.key = k) (hheld : ∀ h, held = some h → h.row.key = k) {h : Holding}
    (hreceived : receive d? held = some h) : h.row.key = k := by
  cases d? with
  | none => exact hheld h hreceived
  | some d =>
    cases held with
    | none =>
      cases hreceived
      exact hd d rfl
    | some h₀ =>
      cases hreceived
      unfold Holding.restage
      split <;> exact hheld h₀ rfl

/-- What leaves every holding of a key alone may come before or after its deposit. -/
theorem receive_map {d? : Option Deposit} {held : Option Holding} {k : LedgerKey}
    {f : Holding → Holding} (hd : ∀ d, d? = some d → d.key = k ∧ ∀ h, h.row.key = k → f h = h)
    (hheld : ∀ h, held = some h → h.row.key = k) :
    receive d? (held.map f) = (receive d? held).map f := by
  cases hcase : d? with
  | none => rfl
  | some d =>
    have hfix : ∀ x : Option Holding, (∀ h, x = some h → h.row.key = k) → x.map f = x := by
      intro x hx
      cases x with
      | none => rfl
      | some h => rw [Option.map_some, (hd d hcase).2 h (hx h rfl)]
    rw [hfix held hheld, hfix]
    intro h
    refine key_of_receive (fun d' hd' => ?_) hheld
    cases hd'
    exact (hd d hcase).1

namespace Store

variable {s m t : Store} {part : Int → Bool} {b : Nat} {first rest : Batch} {k : LedgerKey}

theorem due?_append (first rest : List StagedOutput) :
    t.due? part (first ++ rest) k = (t.due? part first k).or (t.due? part rest k) := by
  rw [due?, due?, due?, List.find?_append, Option.map_or]

/-- Nothing new is due under a key once the addresses that the outputs pay are there. -/
theorem due?_eq_of_paid (hm : m.WellFormed) (ht : t.WellFormed)
    (hsub : ∀ a ∈ m.addresses, a ∈ t.addresses) {outputs : List StagedOutput}
    (htable : ∀ o ∈ outputs, ∀ a ∈ t.addresses, a.scripts.toKeyHash = o.script → a ∈ m.addresses) :
    m.due? part outputs k = t.due? part outputs k := by
  refine Option.ext fun d => ⟨due?_mono ht hsub, fun hdue => ?_⟩
  obtain ⟨o, ho, -⟩ := Option.map_eq_some_iff.1 hdue
  have hpays := List.find?_some ho
  rw [pays, Bool.and_eq_true, Bool.and_eq_true, beq_iff_eq] at hpays
  obtain ⟨a, ha, hid, hscript⟩ := exists_of_scriptOf? hpays.1.2
  have hsame := hm.scriptOf?_eq (htable o (List.mem_of_find?_eq_some ho) a ha hscript)
  rw [hid, hscript] at hsame
  rw [due?_congr (hsame.trans hpays.1.2.symm), hdue]

/-- A spend that comes before an output does not spend it. -/
theorem spendIn_of_due? (hprec : first.Precedes rest) {d : Deposit}
    (hdue : t.due? part rest.outputs k = some d) {h : Holding} (hkey : h.row.key = k) :
    h.spendIn part first = h := by
  refine Holding.spendIn_of_not fun hhit => ?_
  obtain ⟨sp, hsp⟩ := List.exists_mem_of_ne_nil _ (Holding.isSpentIn_iff.1 hhit).2.2
  obtain ⟨hmem, htxid, hvout⟩ := prevOut_of_mem_spendsIn hsp
  have hd := key_of_due? hdue
  obtain ⟨o, ho, rfl⟩ := Option.map_eq_some_iff.1 hdue
  rw [hkey, ← hd] at htxid hvout
  exact hprec.later sp hmem o (List.mem_of_find?_eq_some ho) (OutPoint.eq_of_bytes htxid hvout)

/-- **Two batches, one after the other, settle a store like both together**, if the first does not
reach into the second and no address that it pays is derived later. -/
theorem Settles.trans {ref : BlockRef} (h : Settles part b first s m) (h' : Settles part b rest m t)
    (hseen : first.IsAt ref) (hprec : first.Precedes rest)
    (htable : ∀ o ∈ first.outputs, ∀ a ∈ t.addresses, a.scripts.toKeyHash = o.script →
      a ∈ m.addresses) : Settles part b (.concat [first, rest]) s t where
  reaches := by
    rw [Batch.outputs_concat_pair]
    refine h.reaches.trans h'.reaches (fun o ho => ⟨o, List.mem_append_left _ ho, rfl, rfl, rfl⟩)
      (fun o ho => ⟨o, List.mem_append_right _ ho, rfl, rfl, rfl⟩) fun a ha hpart o ho hscript => ?_
    rcases List.mem_append.1 ho with ho | ho
    · exact h'.reaches.within.keys _
        (h.reaches.closed.matched a (htable o ho a ha hscript) hpart o ho hscript)
    · exact h'.reaches.closed.matched a ha hpart o ho hscript
  holding := by
    intro k
    have hm := h.reaches.built.wellFormed
    have ht := h'.reaches.built.wellFormed
    have hdue : m.due? part first.outputs k = t.due? part first.outputs k :=
      due?_eq_of_paid hm ht h'.reaches.within.addresses htable
    have hconf : ∀ d, t.due? part first.outputs k = some d → d.side.isConfirmed = true := by
      intro d hd
      obtain ⟨o, ho, rfl⟩ := Option.map_eq_some_iff.1 hd
      rw [DepositSide.isConfirmed, Deposit.ofOutput, hseen.1 o (List.mem_of_find?_eq_some ho)]
      rfl
    have hboth : (fun x : Holding => x.spendIn part (.concat [first, rest])) =
        (fun x => x.spendIn part rest) ∘ fun x => x.spendIn part first :=
      funext fun x => (x.spendIn_spendIn hseen hprec part).symm
    have hkeys : ∀ x, receive (t.due? part first.outputs k) (s.holding? k) = some x → x.row.key = k :=
      fun x hx => key_of_receive (fun d hd => key_of_due? hd) (fun x hx => key_of_holding? hx) hx
    -- deposits of the rest and spends of the first batch change places
    have hlater : ∀ d, t.due? part rest.outputs k = some d →
        d.key = k ∧ ∀ x : Holding, x.row.key = k → x.spendIn part first = x :=
      fun d hd => ⟨key_of_due? hd, fun x hx => spendIn_of_due? hprec hd hx⟩
    have hswap := receive_map hlater hkeys
    rw [Batch.outputs_concat_pair, h'.holding k, h.holding k, hdue, hswap, receive_or _ hconf,
      ← due?_append, Option.map_map, ← hboth]

end Store

/-! ## The chain of a run -/

namespace HashChain

variable {c : HashChain} {placed : PlacedBlock} {rest blocks : List PlacedBlock}

/-- Blocks at the heights that a chain has next. -/
def Takes (c : HashChain) : List PlacedBlock → Prop
  | [] => True
  | placed :: rest => placed.height.toNat = c.hashes.length ∧ (c.push placed.block.hash).Takes rest

/-- Each block with the view of the chain that is below it. -/
def along (c : HashChain) : List PlacedBlock → List (PlacedBlock × ChainView)
  | [] => []
  | placed :: rest => (placed, c.view) :: (c.push placed.block.hash).along rest

theorem length_push (c : HashChain) (hash : Hash256) :
    (c.push hash).hashes.length = c.hashes.length + 1 := List.length_append

theorem Takes.length_le (h : c.Takes blocks) (hplaced : placed ∈ blocks) :
    c.hashes.length ≤ placed.height.toNat := by
  induction blocks generalizing c with
  | nil => cases hplaced
  | cons first rest ih =>
    obtain ⟨hheight, hrest⟩ := h
    rcases List.mem_cons.1 hplaced with rfl | hplaced
    · exact Nat.le_of_eq hheight.symm
    · have hle := ih hrest hplaced
      rw [length_push] at hle
      omega

/-- A block may be read from the chain or from the batch. -/
theorem withBlocks_push (h : c.Takes (placed :: rest)) :
    (c.push placed.block.hash).view.withBlocks rest = c.view.withBlocks (placed :: rest) := by
  obtain ⟨hheight, hrest⟩ := h
  funext height
  unfold ChainView.withBlocks
  rw [List.find?_cons]
  by_cases heq : placed.height = height
  · have hnone : rest.find? (·.height == height) = none := by
      refine List.find?_eq_none.2 fun next hnext hat => ?_
      have hle := hrest.length_le hnext
      rw [length_push, beq_iff_eq.1 hat, ← heq] at hle
      omega
    rw [beq_iff_eq.2 heq, hnone]
    simp only [view_push]
    rw [if_pos (heq ▸ hheight)]
  · have hne : height.toNat ≠ c.hashes.length := by
      rw [← hheight]
      exact fun hsame => heq (UInt32.toNat_inj.1 hsame.symm)
    rw [beq_false_of_ne heq]
    simp only [view_push]
    rw [if_neg hne]

/-- The locator of a block does not ask whether the block is on the chain. -/
theorem build_withBlocks_singleton (placed : PlacedBlock) (view : ChainView) :
    BlockLocator.build placed.ref (view.withBlocks [placed]) = BlockLocator.build placed.ref view := by
  refine BlockLocator.build_congr fun height hlt => ?_
  have hne : placed.height ≠ height := (UInt32.ne_of_lt hlt).symm
  unfold ChainView.withBlocks
  rw [List.find?_cons, beq_false_of_ne hne, List.find?_nil]

/-- Blocks that extend one another, at the next heights of a chain, are linked. -/
theorem Takes.linked (h : c.Takes (placed :: rest))
    (hextend : BatchHeader.firstBreak? (placed :: rest) = none) : Linked placed.ref rest := by
  induction rest generalizing c placed with
  | nil => exact trivial
  | cons next rest ih =>
    obtain ⟨hheight, hnext, hrest⟩ := h
    rw [length_push, ← hheight] at hnext
    unfold BatchHeader.firstBreak? at hextend
    split at hextend
    · rename_i hlink
      exact ⟨hnext, hlink.2, ih ⟨by rw [length_push, ← hheight]; exact hnext, hrest⟩ hextend⟩
    · cases hextend

end HashChain

/-! ## The wallets of a run -/

namespace Scope

variable {name : Option String} {parent : Hash256} {placed : PlacedBlock} {rest : List PlacedBlock}
variable {rows rows' mid : List WalletRow} {chain view : ChainView} {tip : BlockRef}

/-- Every wallet that a mode admits is at a block, or at none of the blocks of a list. -/
def Clear (name : Option String) (parent : Hash256) (blocks : List PlacedBlock)
    (rows : List WalletRow) : Prop :=
  ∀ row ∈ rows, name.all (· == row.name) = true →
    row.hash = parent.bytes ∨ ∀ placed ∈ blocks, row.hash ≠ placed.block.hash.bytes

theorem covers_iff {row : WalletRow} : (Scope.mk name (some parent)).covers row = true ↔
    name.all (· == row.name) = true ∧ row.hash = parent.bytes := by
  rw [covers, Bool.and_eq_true, Option.all_some, beq_iff_eq, eq_comm (a := parent.bytes)]

/-- The wallets that take part in one block take part in the next. -/
theorem covers_move (hclear : Clear name parent (placed :: rest) rows) (hashes : List Hash256)
    {row : WalletRow} (hrow : row ∈ rows) :
    (Scope.mk name (some placed.block.hash)).covers
        ((Scope.mk name (some parent)).move placed.ref hashes row) =
      (Scope.mk name (some parent)).covers row := by
  by_cases hcovers : (Scope.mk name (some parent)).covers row = true
  · rw [move_of_covers hcovers, hcovers, covers_iff]
    exact ⟨(covers_iff.1 hcovers).1, rfl⟩
  · rw [move_of_not hcovers, Bool.eq_iff_iff]
    refine ⟨fun hnext => ?_, fun hnow => absurd hnow hcovers⟩
    -- a wallet at the block was there before it
    obtain ⟨hname, hhash⟩ := covers_iff.1 hnext
    rcases hclear row hrow hname with hparent | hother
    · exact covers_iff.2 ⟨hname, hparent⟩
    · exact absurd hhash (hother placed List.mem_cons_self)

theorem Clear.next {hashes : List Hash256} (hclear : Clear name parent (placed :: rest) rows) :
    Clear name placed.block.hash rest
      (rows.map ((Scope.mk name (some parent)).move placed.ref hashes)) := by
  intro row' hrow' hname
  obtain ⟨row, hrow, rfl⟩ := List.mem_map.1 hrow'
  rw [name_move] at hname
  by_cases hcovers : (Scope.mk name (some parent)).covers row = true
  · rw [move_of_covers hcovers]
    exact .inl rfl
  · rw [move_of_not hcovers]
    rcases hclear row hrow hname with hparent | hother
    · exact absurd (covers_iff.2 ⟨hname, hparent⟩) hcovers
    · exact .inr fun next hnext => hother next (List.mem_cons_of_mem _ hnext)

/-- **Moving on from a block** is moving from its parent. -/
theorem Moves.trans (h : (Scope.mk name (some parent)).Moves placed.ref chain rows mid)
    (h' : (Scope.mk name (some placed.block.hash)).Moves tip view mid rows')
    (hclear : Clear name parent (placed :: rest) rows) :
    (Scope.mk name (some parent)).Moves tip view rows rows' := by
  obtain ⟨hashes, -, rfl⟩ := h
  obtain ⟨hashes', hread, rfl⟩ := h'
  refine ⟨hashes', fun row hrow hcovers => ?_, ?_⟩
  · refine hread _ (List.mem_map_of_mem hrow) ?_
    rw [covers_move hclear hashes hrow, hcovers]
  · rw [List.map_map]
    refine List.map_congr_left fun row hrow => ?_
    rw [Function.comp_apply, move, covers_move hclear hashes hrow, move, move]
    split <;> rfl

end Scope

namespace Store

variable {s t : Store} {name : Option String} {parent : Hash256} {placed : PlacedBlock}
variable {rest : List PlacedBlock}

/-- The same wallets take part in the next block. -/
theorem inScope_of_moves {chain : ChainView}
    (h : (Scope.mk name (some parent)).Moves placed.ref chain s.wallets t.wallets)
    (hclear : Scope.Clear name parent (placed :: rest) s.wallets) (wallet : Int) :
    t.inScope ⟨name, some placed.block.hash⟩ wallet = s.inScope ⟨name, some parent⟩ wallet := by
  obtain ⟨hashes, -, hwallets⟩ := h
  rw [inScope, hwallets, List.any_map, inScope, Bool.eq_iff_iff, List.any_eq_true, List.any_eq_true]
  refine exists_congr fun row => and_congr_right fun hrow => ?_
  rw [Function.comp_apply, Scope.id_move, Scope.covers_move hclear hashes hrow]

end Store

/-! ## Runs -/

namespace Indexer

open Store

variable {ix next last once : Indexer} {placed : PlacedBlock} {blocks rest : List PlacedBlock}
variable {c : HashChain} {chain : ChainView} {states : List Indexer} {outcome : BatchOutcome}
variable {part : Int → Bool}

/-- An indexer before blocks that follow a parent: the wallets that take part are at the parent, and no
other wallet is at one of the blocks. -/
structure Poised (part : Int → Bool) (parent : Hash256) (blocks : List PlacedBlock) (ix : Indexer) :
    Prop where
  ready : ix.Ready
  scope : ∀ w, ix.store.inScope ⟨ix.config.mode.walletName, some parent⟩ w = part w
  clear : Scope.Clear ix.config.mode.walletName parent blocks ix.store.wallets

/-- **One block** settles the store, and the next block finds the same wallets at this one. -/
theorem Poised.processBlock (h : ix.Poised part placed.block.prev (placed :: rest))
    (hblock : ix.processBlock placed chain = .ok (outcome, next)) (ho : next.store.OneRowPerOutput) :
    Settles part ix.config.topUpBuffer.toNat (Batch.ofBlock placed) ix.store next.store ∧
      next.Poised part placed.block.hash rest ∧ next.config = ix.config ∧
      (Scope.mk ix.config.mode.walletName (some placed.block.prev)).Moves placed.ref chain
        ix.store.wallets next.store.wallets := by
  have hscope : ∀ w, ix.store.inScope
      (Scope.ofBatch ix.config (some ⟨placed.block.prev, placed.ref⟩)) w = part w := h.scope
  obtain ⟨hsettles, hready⟩ := h.ready.settles hscope hblock ho
  obtain ⟨happly, hconfig⟩ := applyBatch_of_processBatch hblock
  have hmoves := moves_applyBatch h.ready.built.wellFormed happly
  refine ⟨hsettles, ⟨hready, fun w => ?_, ?_⟩, hconfig, hmoves⟩
  · rw [← h.scope w, hconfig]
    exact inScope_of_moves hmoves h.clear w
  · obtain ⟨hashes, -, hwallets⟩ := hmoves
    rw [hconfig, hwallets]
    exact h.clear.next

/-- **A run of blocks** settles the store like their batch, and takes the wallets to the last one. -/
theorem Poised.processEach (h : ix.Poised part placed.block.prev (placed :: rest))
    (htakes : c.Takes (placed :: rest)) (hlink : Linked placed.ref rest)
    (hprec : (placed :: rest).Pairwise fun a b => (Batch.ofBlock a).Precedes (Batch.ofBlock b))
    (hrun : ix.processEach (c.along (placed :: rest)) = .ok states)
    (hrows : ∀ j ∈ states, j.store.OneRowPerOutput)
    (htable : ∀ e ∈ (placed :: rest).zip states, ∀ o ∈ (Batch.ofBlock e.1).outputs,
      ∀ a ∈ (states.getLastD ix).store.addresses, a.scripts.toKeyHash = o.script →
        a ∈ e.2.store.addresses) :
    Settles part ix.config.topUpBuffer.toNat (Batch.ofBlocks (placed :: rest)) ix.store
        (states.getLastD ix).store ∧
      (states.getLastD ix).Ready ∧
      (Scope.mk ix.config.mode.walletName (some placed.block.prev)).Moves
        ((placed :: rest).getLast (List.cons_ne_nil _ _)).ref (c.view.withBlocks (placed :: rest))
        ix.store.wallets (states.getLastD ix).store.wallets := by
  induction rest generalizing ix c placed states with
  | nil =>
    obtain ⟨⟨outcome, next⟩, hblock, hrun⟩ := bind_eq_ok_iff.1 hrun
    cases hrun
    obtain ⟨hsettles, hnext, -, hashes, hread, hwallets⟩ :=
      h.processBlock hblock (hrows next List.mem_cons_self)
    rw [Batch.ofBlocks_singleton]
    refine ⟨hsettles, hnext.ready, hashes, fun row hrow hcovers => ?_, hwallets⟩
    rw [List.getLast_singleton, HashChain.build_withBlocks_singleton]
    exact hread row hrow hcovers
  | cons second rest ih =>
    obtain ⟨⟨outcome, next⟩, hblock, hrun⟩ := bind_eq_ok_iff.1 hrun
    obtain ⟨states', hrest, hrun⟩ := bind_eq_ok_iff.1 hrun
    cases hrun
    obtain ⟨-, hprev, hlink'⟩ := hlink
    have hprev : second.block.prev = placed.block.hash := hprev
    obtain ⟨hsettles, hnext, hconfig, hmoves⟩ :=
      h.processBlock hblock (hrows next List.mem_cons_self)
    rw [← hprev] at hnext
    rw [List.getLastD_cons] at htable ⊢
    obtain ⟨hsettles', hlast, hmoves'⟩ := ih hnext htakes.2 hlink' (List.pairwise_cons.1 hprec).2 hrest
      (fun j hj => hrows j (List.mem_cons_of_mem _ hj))
      fun e he => htable e (List.mem_cons_of_mem _ he)
    rw [hconfig] at hsettles' hmoves'
    rw [hprev, HashChain.withBlocks_push htakes] at hmoves'
    refine ⟨?_, hlast, hmoves.trans hmoves' h.clear⟩
    rw [Batch.ofBlocks_cons]
    exact hsettles.trans hsettles' (Batch.isAt_ofBlock placed)
      (Batch.precedes_ofBlocks (List.pairwise_cons.1 hprec).1) (htable _ List.mem_cons_self)

/-- Blocks are processed together only if they extend one another. -/
theorem batch_of_processBlocks (h : ix.processBlocks (placed :: rest) chain = .ok (outcome, last)) :
    BatchHeader.firstBreak? (placed :: rest) = none ∧
      ix.processBatch (Batch.ofBlocks (placed :: rest))
        (some ⟨placed.block.prev, ((placed :: rest).getLast (List.cons_ne_nil _ _)).ref⟩)
        (chain.withBlocks (placed :: rest)) = .ok (outcome, last) := by
  unfold processBlocks BatchHeader.ofBlocks at h
  dsimp only at h
  cases hbreak : BatchHeader.firstBreak? (placed :: rest) with
  | some broken =>
    rw [hbreak] at h
    cases h
  | none =>
    rw [hbreak] at h
    exact ⟨rfl, h⟩

/-- **A batch of blocks agrees with its blocks one by one.** If no block reaches into a later one, and
what a block pays is derived by the end of its call at the latest, then the stores are alike in the
end. -/
theorem blocks_agree_with_batch {calls : List Call} {past : List Indexer}
    (hist : History calls (ix :: past)) (hrows : ∀ j ∈ ix :: past, j.store.OneRowPerOutput)
    (hb : ix.config.topUpBuffer.toNat < ExtendedKey.numberLimit) (htakes : c.Takes blocks)
    (hfresh : ∀ w ∈ ix.store.wallets, (∀ name, ix.config.mode = .singleWallet name → w.name = name) →
      ∀ placed ∈ blocks, w.hash ≠ placed.block.hash.bytes)
    (hdistinct : blocks.Pairwise fun a b =>
      ∀ tx ∈ a.block.transactions, ∀ tx' ∈ b.block.transactions, tx.txid ≠ tx'.txid)
    (hagree : (Batch.ofBlocks blocks).SpendsAgree)
    (hlater : blocks.Pairwise fun a b =>
      ∀ sp ∈ (Batch.ofBlock a).spends, ∀ o ∈ (Batch.ofBlock b).outputs, sp.prevOut ≠ o.outpoint)
    (honce : ix.processBlocks blocks c.view = .ok (outcome, once)) (ho : once.store.OneRowPerOutput)
    (hrun : ix.processEach (c.along blocks) = .ok states)
    (hrows' : ∀ j ∈ states, j.store.OneRowPerOutput)
    (htable : ∀ e ∈ blocks.zip states, ∀ o ∈ (Batch.ofBlock e.1).outputs,
      ∀ a ∈ (states.getLastD ix).store.addresses, a.scripts.toKeyHash = o.script →
        a ∈ e.2.store.addresses) :
    once.store.Alike (states.getLastD ix).store := by
  have hready := ready_of_history hist hrows hb
  cases blocks with
  | nil =>
    cases honce
    cases hrun
    exact .refl _
  | cons placed rest =>
    have hprec := Batch.pairwise_precedes hdistinct hagree hlater
    obtain ⟨hextend, honce⟩ := batch_of_processBlocks honce
    obtain ⟨hsettles, honceReady⟩ := hready.settles (fun _ => rfl) honce ho
    have hpoised : ix.Poised _ placed.block.prev (placed :: rest) :=
      ⟨hready, fun _ => rfl, fun w hw hname => .inr (hfresh w hw (BatchMode.admits_iff.1 hname))⟩
    obtain ⟨hsettles', hlastReady, hmoves'⟩ :=
      hpoised.processEach htakes (htakes.linked hextend) hprec hrun hrows' htable
    refine hsettles.alike hsettles' honceReady.anchored hlastReady.anchored ?_
    -- both runs take the same wallets to the last block
    have hmoves := moves_applyBatch hready.built.wellFormed (applyBatch_of_processBatch honce).1
    exact hmoves.eq hmoves' rfl

end Indexer

namespace Sample

/-- The chain below both blocks. -/
def below : HashChain := ⟨[Hash256.zero]⟩

theorem blocks_apart :
    (∀ w ∈ store.wallets, ∀ placed ∈ [paying, spender], w.hash ≠ placed.block.hash.bytes) ∧
    ([paying, spender].Pairwise fun a b =>
      ∀ tx ∈ a.block.transactions, ∀ tx' ∈ b.block.transactions, tx.txid ≠ tx'.txid) ∧
    (Batch.ofBlocks [paying, spender]).SpendsAgree ∧
    [paying, spender].Pairwise fun a b =>
      ∀ sp ∈ (Batch.ofBlock a).spends, ∀ o ∈ (Batch.ofBlock b).outputs, sp.prevOut ≠ o.outpoint := by
  decide +kernel

theorem processBlocks_once :
    ((opened unbuffered).processBlocks [paying, spender] below.view).map (fun answer =>
      decide answer.2.store.OneRowPerOutput) = .ok true := by
  decide +kernel

theorem processEach_along :
    ((opened unbuffered).processEach (below.along [paying, spender])).map (·.map fun ix =>
      (decide ix.store.OneRowPerOutput, decide (ix.store.addresses = store.addresses),
        ix.store.ledger.map (·.spend.height))) =
    .ok [(true, true, [none]), (true, true, [some 2, none])] := by
  decide +kernel

end Sample

namespace Indexer

open Store

/-- A deposit and its spend, in one batch or in two blocks. -/
theorem blocks_agree_with_batch_spent : ∃ (calls : List Call) (past states : List Indexer)
    (outcome : BatchOutcome) (once : Indexer),
    History calls (Sample.opened Sample.unbuffered :: past) ∧
    (Sample.opened Sample.unbuffered).processBlocks [Sample.paying, Sample.spender]
      Sample.below.view = .ok (outcome, once) ∧
    (Sample.opened Sample.unbuffered).processEach
      (Sample.below.along [Sample.paying, Sample.spender]) = .ok states ∧
    states.map (fun ix => ix.store.ledger.map (·.spend.height)) = [[none], [some 2, none]] ∧
    once.store.Alike (states.getLastD (Sample.opened Sample.unbuffered)).store := by
  obtain ⟨past, hist, hpast⟩ := Sample.history Sample.unbuffered
  obtain ⟨⟨outcome, once⟩, honce, ho⟩ := map_eq_ok_iff.1 Sample.processBlocks_once
  obtain ⟨states, hrun, hstates⟩ := map_eq_ok_iff.1 Sample.processEach_along
  obtain ⟨mid, rest, rfl, hmid, hrest⟩ := List.map_eq_cons_iff.1 hstates
  obtain ⟨last, rest, rfl, hlast, hnil⟩ := List.map_eq_cons_iff.1 hrest
  obtain rfl := List.map_eq_nil_iff.1 hnil
  simp only [Prod.mk.injEq, decide_eq_true_eq] at ho hmid hlast
  have hrows : ∀ j ∈ Sample.opened Sample.unbuffered :: past, j.store.OneRowPerOutput :=
    List.forall_mem_cons.2 ⟨oneRow_of_nil rfl, fun j hj => oneRow_of_nil (hpast j hj)⟩
  have hrows' : ∀ j ∈ [mid, last], j.store.OneRowPerOutput :=
    List.forall_mem_cons.2 ⟨hmid.1, List.forall_mem_singleton.2 hlast.1⟩
  have htakes : Sample.below.Takes [Sample.paying, Sample.spender] := ⟨rfl, rfl, trivial⟩
  obtain ⟨hfresh, hdistinct, hagree, hlater⟩ := Sample.blocks_apart
  -- no address is derived
  have htable : ∀ e ∈ [Sample.paying, Sample.spender].zip [mid, last],
      ∀ a ∈ last.store.addresses, a ∈ e.2.store.addresses := by
    intro e he a ha
    have hmem := (List.of_mem_zip he).2
    simp only [List.mem_cons, List.not_mem_nil, or_false] at hmem
    rw [hlast.2.1] at ha
    rcases hmem with heq | heq
    · rw [heq, hmid.2.1]
      exact ha
    · rw [heq, hlast.2.1]
      exact ha
  have halike := blocks_agree_with_batch hist hrows (by decide) htakes
    (fun w hw _ => hfresh w hw) hdistinct hagree hlater honce ho hrun hrows' fun e he _ _ a ha _ => htable e he a ha
  refine ⟨_, past, _, outcome, once, hist, honce, hrun, ?_, halike⟩
  rw [List.map_cons, List.map_singleton, hmid.2.2, hlast.2.2]

end Indexer

end WalletLedger
