import Mathlib.Data.List.Pairwise
import WalletLedger.Proofs.Reapply
import WalletLedger.Proofs.Undo

/-!
# The order of staging

What a batch does is told by the sets of its outputs and spends. Deposits are recorded in the order of
their keys, one of each key; a row takes one of the spends of its output; and the payments of a spend
have one slot for each output. So it does not matter in which order a caller stages, nor how often.

* `SlotEach`: payments are told by their slots, so that `Store.read_payments_perm`: queries do not see the
  order in which they are kept.
* `Store.newDeposits_congr`: every round records the same deposits.
* `Store.matchDeposits_congr`, `Store.matchSpends_congr`: the two passes of a batch.
* `Indexer.staged_in_any_order`: the answers to two batches of the same outputs and spends.
-/

namespace WalletLedger

open Sorting

/-- Two batches hold the same outputs and the same spends, in any order and any number of times. -/
structure Batch.Same (b b' : Batch) : Prop where
  outputs : ∀ o, o ∈ b.outputs ↔ o ∈ b'.outputs
  spends : ∀ sp, sp ∈ b.spends ↔ sp ∈ b'.spends

/-- Keys that tie are one key. -/
theorem LedgerKey.eq_of_order {k k' : LedgerKey} (h : k.order k' = .eq) : k = k' := by
  simp only [order, outputOrder, AddressId.order, AddressGroup.order, compareLex_eq_eq, compareOn,
    Std.LawfulEqCmp.compare_eq_iff_eq] at h
  obtain ⟨⟨⟨hwallet, haccount, hkind⟩, hindex⟩, ⟨htxid, hvout⟩, hredeem⟩ := h
  obtain ⟨⟨⟨_, _, _⟩, _⟩, _, _, _⟩ := k
  obtain ⟨⟨⟨_, _, _⟩, _⟩, _, _, _⟩ := k'
  simp_all

/-- A list of one element, however often it is repeated, ends with it. -/
theorem getLast?_congr {α : Type} {l l' : List α} (hone : ∀ a ∈ l, ∀ a' ∈ l, a = a')
    (hsame : ∀ a, a ∈ l ↔ a ∈ l') : l.getLast? = l'.getLast? := by
  cases hlast : l.getLast? with
  | none =>
    have hnil := List.getLast?_eq_none_iff.1 hlast
    subst hnil
    have hnil' : l' = [] := List.eq_nil_iff_forall_not_mem.2 fun a ha => by simpa using (hsame a).2 ha
    rw [hnil', List.getLast?_nil]
  | some a =>
    have ha := List.mem_of_getLast? hlast
    have hne : l' ≠ [] := List.ne_nil_of_mem ((hsame a).1 ha)
    rw [List.getLast?_eq_some_getLast hne]
    have hlast' := (hsame _).2 (List.getLast_mem hne)
    rw [hone a ha _ hlast']

/-! ## Slots of payments -/

/-- Payments have a slot each, the key of their table. -/
def SlotEach (payments : List PaymentRow) : Prop :=
  payments.Pairwise fun p q => p.source = q.source → p.index ≠ q.index

theorem SlotEach.eq_of_slot {payments : List PaymentRow} (h : SlotEach payments) {p q : PaymentRow}
    (hp : p ∈ payments) (hq : q ∈ payments) (hsource : p.source = q.source)
    (hindex : p.index = q.index) : p = q := by
  have : Std.Symm fun p q : PaymentRow => p.source = q.source → p.index ≠ q.index :=
    ⟨fun p q hne heq => (hne heq.symm).symm⟩
  by_contra hne
  exact h.forall hp hq hne hsource hindex

/-- Payments that are moved to another time find their slots free. -/
theorem SlotEach.retime {payments : List PaymentRow} (h : SlotEach payments) (source : PaymentSource)
    (time : UInt32) : SlotEach (retime payments source time) := by
  unfold SlotEach WalletLedger.retime
  split
  · exact h
  · dsimp only
    rw [List.pairwise_map]
    have hfree : ∀ p ∈ payments, p.source = source → ∀ q : PaymentRow,
        (!(q.source == { source with time := time } &&
          (payments.filter (·.source == source)).any (·.index == q.index))) = true →
        { source with time := time } = q.source → p.index ≠ q.index := by
      intro p hp hsource q hq htarget hindex
      rw [← htarget, beq_self_eq_true, Bool.true_and, Bool.not_eq_true', List.any_eq_false] at hq
      exact hq p (List.mem_filter.2 ⟨hp, beq_iff_eq.2 hsource⟩) (beq_iff_eq.2 hindex)
    refine (h.sublist List.filter_sublist).imp_of_mem fun {p q} hp hq hne => ?_
    obtain ⟨hp, hpkept⟩ := List.mem_filter.1 hp
    obtain ⟨hq, hqkept⟩ := List.mem_filter.1 hq
    split <;> split
    · rename_i hpmoves hqmoves
      exact fun _ => hne (hpmoves.trans hqmoves.symm)
    · rename_i hpmoves _
      exact hfree p hp hpmoves q hqkept
    · rename_i _ hqmoves
      exact fun htarget => (hfree q hq hqmoves p hpkept htarget.symm).symm
    · exact hne

namespace Store

variable {s s' : Store} {staged : Batch → Prop} {scope : Scope} {batch batch' : Batch}
  {applied : List LedgerKey}

theorem slotEach_of_write (hslots : SlotEach s.payments) (h : Write staged s s') :
    SlotEach s'.payments := by
  rcases ledger_cases h with ⟨_, _, d, -, -, rfl⟩ | ⟨_, _, -, rfl⟩ | ⟨-, hpayments, -⟩
  · unfold record
    split
    · exact hslots
    · split
      · exact hslots.retime _ _
      · exact hslots
  · exact pairwise_insertPayments (hslots.sublist List.filter_sublist)
  · rw [hpayments]
    exact hslots

theorem slotEach_of_change (hslots : SlotEach s.payments) (h : Change staged s s') :
    SlotEach s'.payments := by
  cases h with
  | written writes =>
    induction writes with
    | refl => exact hslots
    | tail _ hwrite ih => exact slotEach_of_write ih hwrite
  | undone => exact hslots.sublist List.filter_sublist
  | dropped => exact hslots.sublist List.filter_sublist

/-- A query that sorts payments of distinct slots finds them in one order. -/
theorem sortBy_payments {order : PaymentRow → PaymentRow → Ordering} [Std.TransCmp order]
    {payments payments' : List PaymentRow} (hperm : payments.Perm payments') 
    (hslots : SlotEach payments')
    (htie : ∀ p ∈ payments', ∀ q ∈ payments', order p q = .eq → p.source = q.source ∧ p.index = q.index) :
    sortBy (notAfter order) payments = sortBy (notAfter order) payments' := by
  refine sortBy_congr hperm fun p hp q hq hle hle' => ?_
  obtain ⟨hsource, hindex⟩ := htie p hp q hq (Std.OrientedCmp.isLE_antisymm hle hle')
  exact hslots.eq_of_slot hp hq hsource hindex

/-- **Queries do not see the order in which payments are kept.** -/
theorem read_payments_perm {payments : List PaymentRow} (hperm : s.payments.Perm payments)
    (hslots : SlotEach s.payments) :
    (∀ o, { s with payments := payments }.paymentsFor o = s.paymentsFor o) ∧
      { s with payments := payments }.allPayments = s.allPayments := by
  constructor
  · intro o
    unfold paymentsFor
    dsimp only
    rw [sortBy_payments (hperm.symm.filter _) (hslots.sublist List.filter_sublist)]
    intro p hp q hq htie
    obtain ⟨-, hp⟩ := List.mem_filter.1 hp
    obtain ⟨-, hq⟩ := List.mem_filter.1 hq
    simp only [Bool.and_eq_true, beq_iff_eq] at hp hq
    simp only [paymentOrder, compareLex_eq_eq, compareOn, Std.LawfulEqCmp.compare_eq_iff_eq] at htie
    refine ⟨?_, htie.2⟩
    cases hpsource : p.source
    cases hqsource : q.source
    simp_all
  · unfold allPayments
    dsimp only
    rw [sortBy_payments hperm.symm hslots]
    intro p hp q hq htie
    simp only [paymentOrder, compareLex_eq_eq, compareOn, Std.LawfulEqCmp.compare_eq_iff_eq] at htie
    obtain ⟨htxid, hvout, htime, hindex⟩ := htie
    exact ⟨by cases hp : p.source; cases hq : q.source; simp_all, hindex⟩

/-! ## Deposits -/

theorem unapplied_sublist (applied : List LedgerKey) (ds : List Deposit) :
    (unapplied applied ds).Sublist ds := by
  induction ds generalizing applied with
  | nil => exact .slnil
  | cons d ds ih =>
    unfold unapplied
    split
    · exact (ih applied).cons d
    · exact (ih (d.key :: applied)).cons_cons d

/-- If the deposits of a key are one deposit, all that are not applied are picked. -/
theorem mem_unapplied_iff {ds : List Deposit} {d : Deposit}
    (hkeys : ∀ d ∈ ds, ∀ e ∈ ds, d.key = e.key → d = e) :
    d ∈ unapplied applied ds ↔ d ∈ ds ∧ d.key ∉ applied := by
  constructor
  · exact mem_of_mem_unapplied
  · rintro ⟨hd, hkey⟩
    have hpicked : d.key ∈ (unapplied applied ds).map (·.key) :=
      (List.mem_append.1 (mem_applied_or_unapplied hd)).resolve_left hkey
    obtain ⟨e, he, hsame⟩ := List.mem_map.1 hpicked
    have hmem := (unapplied_sublist applied ds).subset he
    rw [hkeys d hd e hmem hsame.symm]
    exact he

theorem pairwise_deposits (s : Store) (scope : Scope) (outputs : List StagedOutput) :
    (s.deposits scope outputs).Pairwise fun d e =>
      notAfter (fun a b : Deposit => a.key.order b.key) d e = true := by
  have := transCmp_comap (c := LedgerKey.order) Deposit.key
  unfold deposits
  rw [sortBy_eq_insertionSort]
  exact List.pairwise_insertionSort _ _

theorem isDue_congr (hsame : batch.Same batch') {d : Deposit} :
    s.IsDue scope batch.outputs d ↔ s.IsDue scope batch'.outputs d := by
  unfold IsDue
  constructor
  · rintro ⟨o, ho, hdue⟩
    exact ⟨o, (hsame.outputs o).1 ho, hdue⟩
  · rintro ⟨o, ho, hdue⟩
    exact ⟨o, (hsame.outputs o).2 ho, hdue⟩

/-- **A round records the same deposits**, in the same order. -/
theorem newDeposits_congr (hb : batch.OutputsAgree) (hsame : batch.Same batch') :
    s.newDeposits scope batch.outputs applied = s.newDeposits scope batch'.outputs applied := by
  have hmem : ∀ d, d ∈ s.deposits scope batch.outputs ↔ d ∈ s.deposits scope batch'.outputs := by
    intro d
    rw [mem_deposits, mem_deposits, isDue_congr hsame]
  have hkeys : ∀ d ∈ s.deposits scope batch.outputs, ∀ e ∈ s.deposits scope batch.outputs,
      d.key = e.key → d = e := fun d hd e he =>
    (mem_deposits.1 hd).1.eq_of_key hb (mem_deposits.1 he).1
  have hkeys' : ∀ d ∈ s.deposits scope batch'.outputs, ∀ e ∈ s.deposits scope batch'.outputs,
      d.key = e.key → d = e := fun d hd e he => hkeys d ((hmem d).2 hd) e ((hmem e).2 he)
  have hperm : (s.newDeposits scope batch.outputs applied).Perm
      (s.newDeposits scope batch'.outputs applied) := by
    have hnodup : ∀ outputs, (s.newDeposits scope outputs applied).Nodup := fun outputs =>
      List.Nodup.of_map _ (nodup_keys_unapplied applied (s.deposits scope outputs))
    rw [List.perm_ext_iff_of_nodup (hnodup _) (hnodup _)]
    intro d
    unfold newDeposits
    rw [mem_unapplied_iff hkeys, mem_unapplied_iff hkeys', hmem]
  have hsorted : ∀ outputs, (s.newDeposits scope outputs applied).Pairwise fun d e =>
      notAfter (fun a b : Deposit => a.key.order b.key) d e = true := fun outputs =>
    (s.pairwise_deposits scope outputs).sublist (unapplied_sublist applied _)
  refine List.Perm.eq_of_pairwise ?_ (hsorted _) (hsorted _) hperm
  -- deposits that tie have one key
  intro d e hd he hde hed
  have hmemd := (mem_of_mem_unapplied hd).1
  have hmeme := (hmem e).2 (mem_of_mem_unapplied he).1
  have htie : d.key.order e.key = .eq := Std.OrientedCmp.isLE_antisymm hde hed
  exact hkeys d hmemd e hmeme (LedgerKey.eq_of_order htie)

/-- A round of matching, and those after it. -/
theorem matchDeposits_eq {buffer : UInt64} {outputs : List StagedOutput} {pools : List AddressGroup} :
    s.matchDeposits scope buffer outputs pools applied =
      if s.newDeposits scope outputs applied = [] then .ok (⟨0, 1, []⟩, s)
      else
        let new := s.newDeposits scope outputs applied
        match extendPools buffer (s.touchedPools pools new) (recordAll new s).2 with
        | .error e => .error e
        | .ok ([], extended) => .ok (⟨(recordAll new s).1, 1, []⟩, extended)
        | .ok (a :: created, extended) =>
          match extended.matchDeposits scope buffer outputs pools (applied ++ new.map (·.key)) with
          | .error e => .error e
          | .ok (rest, last) => .ok (⟨(recordAll new s).1 + rest.deposits, rest.iterations + 1,
              a :: created ++ rest.created⟩, last) := by
  by_cases hnone : s.newDeposits scope outputs applied = []
  · rw [if_pos hnone, matchDeposits]
    exact if_pos hnone
  · rw [if_neg hnone, matchDeposits]
    refine (if_neg hnone).trans ?_
    dsimp only [newDeposits]
    split <;> rename_i hextend
    all_goals
      rewrite [hextend]
      rfl

/-- **Matching deposits does the same for both batches**, or fails in the same way. -/
theorem matchDeposits_congr (hb : batch.OutputsAgree) (hsame : batch.Same batch') {buffer : UInt64}
    {pools : List AddressGroup} :
    s.matchDeposits scope buffer batch.outputs pools applied =
      s.matchDeposits scope buffer batch'.outputs pools applied := by
  -- the recursion of matching the first batch, round by round with the second
  fun_induction matchDeposits scope buffer batch.outputs pools applied s with
  | case1 applied s new hnone =>
    rw [matchDeposits_eq, ← newDeposits_congr hb hsame, newDeposits, if_pos hnone]
  | case2 applied s new hnew recorded e hextend =>
    rw [matchDeposits_eq, ← newDeposits_congr hb hsame, newDeposits, if_neg hnew]
    dsimp only
    rw [hextend]
  | case3 applied s new hnew recorded extended hextend =>
    rw [matchDeposits_eq, ← newDeposits_congr hb hsame, newDeposits, if_neg hnew]
    dsimp only
    rw [hextend]
  | case4 applied s new hnew recorded a created extended hextend e hrest ih =>
    rw [matchDeposits_eq, ← newDeposits_congr hb hsame, newDeposits, if_neg hnew]
    dsimp only
    rw [hextend]
    dsimp only
    rw [← ih, hrest]
  | case5 applied s new hnew recorded a created extended hextend rest last hrest ih =>
    rw [matchDeposits_eq, ← newDeposits_congr hb hsame, newDeposits, if_neg hnew]
    dsimp only
    rw [hextend]
    dsimp only
    rw [← ih, hrest]

/-! ## Spends -/

/-- The spends of a row are one spend. -/
theorem eq_of_mem_spendsIn (hb : batch.SpendsAgree) {r q : LedgerRow} (hsource : r.source = q.source)
    {sp sp' : StagedSpend} (hsp : sp ∈ r.spendsIn batch.spends) (hsp' : sp' ∈ q.spendsIn batch.spends) :
    sp = sp' := by
  obtain ⟨hmem, htxid, hvout⟩ := prevOut_of_mem_spendsIn hsp
  obtain ⟨hmem', htxid', hvout'⟩ := prevOut_of_mem_spendsIn hsp'
  simp only [LedgerRow.source, PaymentSource.mk.injEq] at hsource
  refine hb sp hmem sp' hmem' (OutPoint.eq_of_bytes ?_ ?_)
  · rw [htxid, htxid', hsource.2.1]
  · rw [hvout, hvout', hsource.2.2]

theorem mem_spendsIn_congr (hsame : batch.Same batch') (r : LedgerRow) (sp : StagedSpend) :
    sp ∈ r.spendsIn batch.spends ↔ sp ∈ r.spendsIn batch'.spends := by
  unfold LedgerRow.spendsIn
  rw [List.mem_filter, List.mem_filter, hsame.spends]

theorem spendBy_congr (hb : batch.SpendsAgree) (hsame : batch.Same batch') (r : LedgerRow) :
    r.spendBy batch.spends = r.spendBy batch'.spends := by
  have hlast : (r.spendsIn batch.spends).getLast? = (r.spendsIn batch'.spends).getLast? := by
    refine getLast?_congr (fun sp hsp sp' hsp' => ?_) (mem_spendsIn_congr hsame r)
    exact eq_of_mem_spendsIn hb rfl hsp hsp'
  unfold LedgerRow.spendBy
  rw [hlast]

/-- The batches spend the same rows. -/
theorem isSpentBy_same (hsame : batch.Same batch') (r : LedgerRow) :
    s.isSpentBy scope batch.spends r = s.isSpentBy scope batch'.spends r := by
  have hempty : (r.spendsIn batch.spends).isEmpty = (r.spendsIn batch'.spends).isEmpty := by
    rw [Bool.eq_iff_iff, List.isEmpty_iff, List.isEmpty_iff, List.eq_nil_iff_forall_not_mem,
      List.eq_nil_iff_forall_not_mem]
    exact forall_congr' fun sp => not_congr (mem_spendsIn_congr hsame r sp)
  unfold isSpentBy
  rw [hempty]

theorem mem_paymentsIn_congr (hsame : batch.Same batch') (r : LedgerRow) (p : PaymentRow) :
    p ∈ r.paymentsIn batch ↔ p ∈ r.paymentsIn batch' := by
  unfold LedgerRow.paymentsIn
  simp only [List.mem_flatMap, List.mem_map, List.mem_filter, mem_spendsIn_congr hsame r,
    hsame.outputs]

/-- The payments that a batch has for rows of one source have a slot each. -/
theorem eq_of_mem_paymentsIn (hb : batch.Consistent) {r q : LedgerRow} {p p' : PaymentRow}
    (hp : p ∈ r.paymentsIn batch) (hp' : p' ∈ q.paymentsIn batch) (hsource : p.source = p'.source)
    (hindex : p.index = p'.index) : p = p' := by
  rw [source_of_mem_paymentsIn hp, source_of_mem_paymentsIn hp'] at hsource
  obtain ⟨sp, hsp, hpaid⟩ := List.mem_flatMap.1 hp
  obtain ⟨sp', hsp', hpaid'⟩ := List.mem_flatMap.1 hp'
  have hspend : sp = sp' := eq_of_mem_spendsIn hb.spends hsource hsp hsp'
  subst hspend
  obtain ⟨o, ho, rfl⟩ := List.mem_map.1 hpaid
  obtain ⟨o', ho', rfl⟩ := List.mem_map.1 hpaid'
  obtain ⟨ho, htxid⟩ := List.mem_filter.1 ho
  obtain ⟨ho', htxid'⟩ := List.mem_filter.1 ho'
  have hpoint : o.outpoint = o'.outpoint := by
    rw [beq_iff_eq] at htxid htxid'
    exact OutPoint.eq_of_bytes (by rw [htxid, htxid']) hindex
  rw [hsource, hb.outputs o ho o' ho' hpoint]

/-- Payments of other sources stay in front of those that are inserted. -/
theorem insertPayments_append {ps kept : List PaymentRow}
    (h : ∀ p ∈ ps, ∀ q ∈ kept, q.source ≠ p.source) (payments : List PaymentRow) :
    ps.foldl insertPayment (kept ++ payments) = kept ++ ps.foldl insertPayment payments := by
  induction ps generalizing payments with
  | nil => rfl
  | cons p ps ih =>
    have hkept : kept.filter (fun q => !(q.source == p.source && q.index == p.index)) = kept := by
      refine List.filter_eq_self.2 fun q hq => ?_
      have hne := h p List.mem_cons_self q hq
      simp [hne]
    have hinsert : insertPayment (kept ++ payments) p = kept ++ insertPayment payments p := by
      unfold insertPayment
      rw [List.filter_append, hkept, List.append_assoc]
    rw [List.foldl_cons, List.foldl_cons, hinsert]
    exact ih (fun p' hp' => h p' (List.mem_cons_of_mem _ hp')) _

/-- Inserted payments are told by their set, if each has a slot of its own. -/
theorem insertPayments_perm {ps ps' : List PaymentRow}
    (hslot : ∀ p ∈ ps, ∀ q ∈ ps, p.source = q.source → p.index = q.index → p = q)
    (hsame : ∀ p, p ∈ ps ↔ p ∈ ps') : (ps.foldl insertPayment []).Perm (ps'.foldl insertPayment []) := by
  have hmem : ∀ (ps : List PaymentRow),
      (∀ p ∈ ps, ∀ q ∈ ps, p.source = q.source → p.index = q.index → p = q) →
      ∀ q, q ∈ ps.foldl insertPayment [] ↔ q ∈ ps := by
    intro ps hslot q
    rw [mem_insertPayments_iff fun p hp q hq => hslot p hp q (hq.resolve_right List.not_mem_nil)]
    simp
  have hnodup : ∀ ps : List PaymentRow, (ps.foldl insertPayment []).Nodup := by
    intro ps
    refine (pairwise_insertPayments .nil).imp fun {p q} hne heq => ?_
    exact hne (congrArg PaymentRow.source heq) (congrArg PaymentRow.index heq)
  have hslot' : ∀ p ∈ ps', ∀ q ∈ ps', p.source = q.source → p.index = q.index → p = q :=
    fun p hp q hq => hslot p ((hsame p).2 hp) q ((hsame q).2 hq)
  rw [List.perm_ext_iff_of_nodup (hnodup ps) (hnodup ps')]
  intro p
  rw [hmem ps hslot, hmem ps' hslot', hsame]

/-- **Matching spends does the same for both batches**, up to the order of the payments. -/
theorem matchSpends_congr (hb : batch.Consistent) (hsame : batch.Same batch') :
    ∃ payments, (s.matchSpends scope batch').1 = (s.matchSpends scope batch).1 ∧
      (s.matchSpends scope batch').2 = { (s.matchSpends scope batch).2 with payments := payments } ∧
      (s.matchSpends scope batch).2.payments.Perm payments := by
  have hspent : s.isSpentBy scope batch'.spends = s.isSpentBy scope batch.spends :=
    funext fun r => (isSpentBy_same hsame r).symm
  refine ⟨(s.matchSpends scope batch').2.payments, ?_, ?_, ?_⟩
  · simp only [matchSpends, hspent]
  · simp only [matchSpends, hspent, spendBy_congr hb.spends hsame]
  · simp only [matchSpends, hspent]
    set spent := s.ledger.filter (s.isSpentBy scope batch.spends) with hdef
    set kept := s.payments.filter fun p => !spent.any (·.source == p.source) with hkept
    have hother : ∀ (b : Batch), ∀ p ∈ spent.flatMap (·.paymentsIn b), ∀ q ∈ kept,
        q.source ≠ p.source := by
      intro b p hp q hq heq
      obtain ⟨r, hr, hpaid⟩ := List.mem_flatMap.1 hp
      have hnone := (List.mem_filter.1 hq).2
      rw [heq, source_of_mem_paymentsIn hpaid, Bool.not_eq_true', List.any_eq_false] at hnone
      exact hnone r hr (beq_self_eq_true r.source)
    have happend : ∀ b : Batch, (spent.flatMap (·.paymentsIn b)).foldl insertPayment kept =
        kept ++ (spent.flatMap (·.paymentsIn b)).foldl insertPayment [] := by
      intro b
      have h := insertPayments_append (hother b) []
      rw [List.append_nil] at h
      exact h
    rw [happend batch, happend batch']
    refine (insertPayments_perm ?_ fun p => ?_).append_left kept
    · intro p hp q hq
      obtain ⟨r, -, hpaid⟩ := List.mem_flatMap.1 hp
      obtain ⟨r', -, hpaid'⟩ := List.mem_flatMap.1 hq
      exact eq_of_mem_paymentsIn hb hpaid hpaid'
    · simp only [List.mem_flatMap, mem_paymentsIn_congr hsame]

/-! ## The whole batch -/

/-- Moving wallets reads no payments and changes none. -/
theorem advance_withPayments (s : Store) (scope : Scope) (header : Option BatchHeader)
    (chain : ChainView) (payments : List PaymentRow) :
    { s with payments := payments }.advance scope header chain =
      (s.advance scope header chain).map fun answer =>
        (answer.1, { answer.2 with payments := payments }) := by
  have hmove : ∀ (tip : BlockRef) (hashes : List Hash256) (ws : List WalletRow) (s : Store),
      ws.foldl (fun s w => s.setTip w.id tip hashes) { s with payments := payments } =
        { ws.foldl (fun s w => s.setTip w.id tip hashes) s with payments := payments } := by
    intro tip hashes ws
    induction ws with
    | nil => exact fun s => rfl
    | cons w ws ih => exact fun s => ih (s.setTip w.id tip hashes)
  cases header with
  | none => rfl
  | some header =>
    unfold advance
    dsimp only
    split
    · rfl
    · cases BlockLocator.build header.tip chain with
      | error e => rfl
      | ok locator => exact congrArg (fun s => Except.ok (_, s)) (hmove _ _ _ s)

/-- **Batches of the same outputs and spends do the same**: they fail in the same way, or have the same
outcome and leave the same store, up to the order of the payments. -/
theorem applyBatch_congr (hb : batch.Consistent) (hsame : batch.Same batch') (config : Config)
    (header : Option BatchHeader) (chain : ChainView) :
    (∃ e, s.applyBatch config batch header chain = .error e ∧
      s.applyBatch config batch' header chain = .error e) ∨
    ∃ outcome t payments, s.applyBatch config batch header chain = .ok (outcome, t) ∧
      s.applyBatch config batch' header chain = .ok (outcome, { t with payments := payments }) ∧
      t.payments.Perm payments := by
  have hdeposits := @matchDeposits_congr s (Scope.ofBatch config header) _ _ [] hb.outputs hsame
    config.topUpBuffer s.pools
  dsimp only [applyBatch]
  rw [hdeposits]
  cases s.matchDeposits (Scope.ofBatch config header) config.topUpBuffer batch'.outputs s.pools [] with
  | error e => exact .inl ⟨e, rfl, rfl⟩
  | ok answer =>
    obtain ⟨found, deposited⟩ := answer
    obtain ⟨payments, hcount, hstore, hperm⟩ :=
      @matchSpends_congr deposited (Scope.ofBatch config header) _ _ hb hsame
    have hadvance := (deposited.matchSpends (Scope.ofBatch config header) batch).2.advance_withPayments
      (Scope.ofBatch config header) header chain payments
    rw [← hstore] at hadvance
    dsimp only [bind, Except.bind]
    rw [hadvance, hcount]
    cases hmoved : (deposited.matchSpends (Scope.ofBatch config header) batch).2.advance
        (Scope.ofBatch config header) header chain with
    | error e => exact .inl ⟨e, rfl, rfl⟩
    | ok answer =>
      refine .inr ⟨_, answer.2, payments, rfl, rfl, ?_⟩
      rw [frame_advance hmoved]
      exact hperm

end Store

namespace Indexer

/-- Payments have a slot each in every state. -/
theorem slotEach_of_reachable {ix : Indexer} (hreach : ix.Reachable) : SlotEach ix.store.payments := by
  obtain ⟨calls, past, hist⟩ := hreach
  have hslots := hist.store_invariant (P := fun s => SlotEach s.payments) .nil
    (fun s s' => Store.slotEach_of_change) ix List.mem_cons_self ix.network
  rw [storeOf_network] at hslots
  exact hslots

/-- **The order of staging and repetitions do not matter.** Two batches that hold the same outputs and the
same spends are refused for the same cause, or have the same outcome and lead to the same state. Only the
order in which payments are kept may be another, which no query of payments shows. -/
theorem staged_in_any_order {ix : Indexer} (hreach : ix.Reachable) {batch batch' : Batch}
    (hb : batch.Consistent) (hsame : batch.Same batch') (header : Option BatchHeader)
    (chain : ChainView) :
    (∃ e, ix.processBatch batch header chain = .error e ∧
      ix.processBatch batch' header chain = .error e) ∨
    ∃ outcome ix' payments, ix.processBatch batch header chain = .ok (outcome, ix') ∧
      ix.processBatch batch' header chain =
        .ok (outcome, { ix' with store := { ix'.store with payments := payments } }) ∧
      ix'.store.payments.Perm payments ∧
      (∀ o, { ix'.store with payments := payments }.paymentsFor o = ix'.store.paymentsFor o) ∧
      { ix'.store with payments := payments }.allPayments = ix'.store.allPayments := by
  have hafter : ∀ outcome ix', ix.processBatch batch header chain = .ok (outcome, ix') →
      ix'.Reachable := fun outcome ix' hok =>
    @Reachable.perform _ _ (.processBatch batch header chain) hreach (map_eq_ok_iff.2 ⟨_, hok, rfl⟩)
  unfold processBatch at hafter ⊢
  rcases Store.applyBatch_congr (s := ix.store) hb hsame ix.config header chain with
    ⟨e, herror, herror'⟩ | ⟨outcome, t, payments, hok, hok', hperm⟩
  · rw [herror, herror']
    exact .inl ⟨e, rfl, rfl⟩
  · rw [hok] at hafter ⊢
    rw [hok']
    have hslots := slotEach_of_reachable (hafter outcome _ rfl)
    exact .inr ⟨outcome, _, payments, rfl, rfl, hperm, Store.read_payments_perm hperm hslots⟩

end Indexer

namespace Sample

/-- A batch staged from its end, and then once more from its start. -/
def restaged (b : Batch) : Batch := ⟨b.outputs.reverse ++ b.outputs, b.spends.reverse ++ b.spends⟩

theorem same_restaged (b : Batch) : b.Same (restaged b) where
  outputs o := by simp [restaged]
  spends sp := by simp [restaged]

end Sample

namespace Indexer

/-- A spend that is staged before its deposit, and both of them twice. -/
theorem staged_in_any_order_spent :
    (Sample.opened Sample.unbuffered).Reachable ∧ Sample.pending.Consistent ∧
    Sample.pending.Same (Sample.restaged Sample.pending) ∧
    ∃ outcome ix', (Sample.opened Sample.unbuffered).processBatch (Sample.restaged Sample.pending) none
        Sample.view = .ok (outcome, ix') ∧
      outcome.deposits = 2 ∧ outcome.spends = 1 ∧ ix'.store.payments.length = 2 := by
  obtain ⟨past, hist, -⟩ := Sample.history Sample.unbuffered
  have hreach : (Sample.opened Sample.unbuffered).Reachable := ⟨_, past, hist⟩
  have hpending : Sample.pending.Consistent := ⟨by decide +kernel, by decide +kernel⟩
  refine ⟨hreach, hpending, Sample.same_restaged _, ?_⟩
  have hanswer : ((Sample.opened Sample.unbuffered).processBatch Sample.pending none Sample.view).map
      (fun answer => (answer.1.deposits, answer.1.spends, answer.2.store.payments.length)) =
        .ok (2, 1, 2) := by
    decide +kernel
  obtain ⟨⟨outcome, ix'⟩, hcall, hcounts⟩ := map_eq_ok_iff.1 hanswer
  simp only [Prod.mk.injEq] at hcounts
  obtain ⟨hdeposits, hspends, hlength⟩ := hcounts
  rcases staged_in_any_order hreach hpending (Sample.same_restaged _) none Sample.view with
    ⟨e, herror, -⟩ | ⟨outcome', ix'', payments, hok, hok', hperm, -⟩
  · rw [hcall] at herror
    cases herror
  · rw [hcall] at hok
    cases hok
    refine ⟨outcome, _, hok', hdeposits, hspends, ?_⟩
    rw [← hperm.length_eq]
    exact hlength

end Indexer

end WalletLedger
