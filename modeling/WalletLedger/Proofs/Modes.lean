import Mathlib.Data.List.Perm.Basic
import WalletLedger.Proofs.Advance

/-!
# One wallet at a time

A batch that is matched against all wallets does to each of them what it does if it is matched against
this wallet alone. So it may be applied to one wallet after the other, in any order.

* `Store.Tally`: what a batch does, row by row, and the part of a wallet in it.
* `Store.exists_tally`: the step, a batch applied to one wallet of a store.
* `Indexer.processEachWallet`: the run over the wallets.
* `Indexer.all_wallets_agree`: matching all wallets at once is such a run.
-/

namespace WalletLedger

/-! ## Lists in parts -/

/-- The parts of a list make it up. -/
theorem perm_flatMap_filter {α β : Type} [DecidableEq β] {f : α → β} {bs : List β} {l : List α}
    (hnodup : bs.Nodup) (h : ∀ a ∈ l, f a ∈ bs) : (bs.flatMap fun b => l.filter (f · == b)).Perm l := by
  induction bs generalizing l with
  | nil =>
    have hnil : l = [] := List.eq_nil_iff_forall_not_mem.2 fun a ha => List.not_mem_nil (h a ha)
    rw [hnil]
    exact .refl _
  | cons b bs ih =>
    obtain ⟨hb, hbs⟩ := List.nodup_cons.1 hnodup
    rw [List.flatMap_cons]
    -- the other parts are parts of what is left
    have hrest : (bs.flatMap fun b' => l.filter (f · == b')) =
        bs.flatMap fun b' => (l.filter fun a => !(f a == b)).filter (f · == b') := by
      refine List.flatMap_congr fun b' hb' => ?_
      refine (filter_filter_of_imp fun a ha => ?_).symm
      rw [Bool.not_eq_true', beq_eq_false_iff_ne, beq_iff_eq.1 ha]
      rintro rfl
      exact hb hb'
    have hleft : ∀ a ∈ l.filter fun a => !(f a == b), f a ∈ bs := by
      intro a ha
      obtain ⟨hmem, hne⟩ := List.mem_filter.1 ha
      rw [Bool.not_eq_true', beq_eq_false_iff_ne] at hne
      exact (List.mem_cons.1 (h a hmem)).resolve_left hne
    rw [hrest]
    exact ((ih hbs hleft).append_left _).trans (List.filter_append_perm _ l)

/-- The configuration that matches batches against one wallet. -/
def Config.only (config : Config) (name : String) : Config :=
  { config with mode := .singleWallet name }

/-! ## A batch, row by row -/

/-- What a batch does, row by row. -/
structure Tally where
  /-- The keys under which deposits are recorded. -/
  deposits : List LedgerKey
  /-- The rows that are spent. -/
  spends : List LedgerRow
  /-- The addresses that pools are extended by. -/
  created : List Address
  /-- The wallets that move. -/
  moved : List WalletRow

namespace Tally

/-- The outcome that tells of it. -/
def outcome (tally : Tally) (iterations : Nat) : BatchOutcome :=
  ⟨tally.deposits.length, tally.spends.length, iterations,
    tally.created.map (·.scripts.toKeyHash), tally.moved.map (·.name)⟩

/-- The part of one wallet. -/
def part (tally : Tally) (wallet : Int) : Tally where
  deposits := tally.deposits.filter (·.isOf wallet)
  spends := tally.spends.filter (·.isOf wallet)
  created := tally.created.filter (·.isOf wallet)
  moved := tally.moved.filter (·.id == wallet)

/-- The parts of several wallets, one after another. -/
def parts (tally : Tally) (wallets : List Int) : Tally where
  deposits := wallets.flatMap fun w => (tally.part w).deposits
  spends := wallets.flatMap fun w => (tally.part w).spends
  created := wallets.flatMap fun w => (tally.part w).created
  moved := wallets.flatMap fun w => (tally.part w).moved

/-- All of it belongs to wallets of a list. -/
structure Within (tally : Tally) (wallets : List Int) : Prop where
  deposits : ∀ k ∈ tally.deposits, k.address.group.wallet ∈ wallets
  spends : ∀ r ∈ tally.spends, r.key.address.group.wallet ∈ wallets
  created : ∀ a ∈ tally.created, a.id.group.wallet ∈ wallets
  moved : ∀ row ∈ tally.moved, row.id ∈ wallets

end Tally

namespace BatchOutcome

/-- What two batches have done together. -/
def join (a b : BatchOutcome) : BatchOutcome where
  deposits := a.deposits + b.deposits
  spends := a.spends + b.spends
  iterations := a.iterations + b.iterations
  newScripts := a.newScripts ++ b.newScripts
  advanced := a.advanced ++ b.advanced

/-- What several batches have done together. -/
def total (outcomes : List BatchOutcome) : BatchOutcome := outcomes.foldr join none

end BatchOutcome

namespace Tally

theorem outcome_parts_cons (tally : Tally) (w : Int) (ws : List Int) (m n : Nat) :
    ((tally.part w).outcome m).join ((tally.parts ws).outcome n) =
      (tally.parts (w :: ws)).outcome (m + n) := by
  simp only [outcome, BatchOutcome.join, parts, List.flatMap_cons, List.length_append,
    List.map_append]

/-- The parts of all wallets make up the whole, up to its order. -/
theorem Within.outcome_parts {tally : Tally} {wallets ws : List Int} (h : tally.Within wallets)
    (hws : ws.Perm wallets) (hnodup : wallets.Nodup) (m n : Nat) :
    ((tally.parts ws).outcome m).deposits = (tally.outcome n).deposits ∧
      ((tally.parts ws).outcome m).spends = (tally.outcome n).spends ∧
      ((tally.parts ws).outcome m).newScripts.Perm (tally.outcome n).newScripts ∧
      ((tally.parts ws).outcome m).advanced.Perm (tally.outcome n).advanced := by
  have hperm : ∀ {α : Type} {f : α → Int} {l : List α}, (∀ a ∈ l, f a ∈ wallets) →
      (ws.flatMap fun w => l.filter (f · == w)).Perm l := fun hl =>
    perm_flatMap_filter (hws.nodup_iff.2 hnodup) fun a ha => hws.mem_iff.2 (hl a ha)
  exact ⟨(hperm h.deposits).length_eq, (hperm h.spends).length_eq, (hperm h.created).map _,
    (hperm h.moved).map _⟩

end Tally

namespace Store

variable {s t m : Store} {w : Int} {scope scope' : Scope}

/-! ## Moving one wallet -/

/-- Wallets move if the locator of the tip can be read. -/
theorem exists_advance {header : BatchHeader} {chain : ChainView}
    (hbuild : ∀ row ∈ s.wallets, scope.covers row = true →
      ∃ locator, BlockLocator.build header.tip chain = .ok locator) :
    ∃ names t, s.advance scope (some header) chain = .ok (names, t) := by
  by_cases hnone : s.wallets.filter scope.covers = []
  · refine ⟨[], s, ?_⟩
    unfold advance
    exact if_pos hnone
  · obtain ⟨row, hrow⟩ := List.exists_mem_of_ne_nil _ hnone
    obtain ⟨hmem, hcovers⟩ := List.mem_filter.1 hrow
    obtain ⟨locator, hlocator⟩ := hbuild row hmem hcovers
    unfold advance
    dsimp only
    rw [if_neg hnone, hlocator]
    exact ⟨_, _, rfl⟩

/-- A wallet that moves with others moves alone as well. -/
theorem advance_share (hs : s.WellFormed) (hm : m.WellFormed) {header : Option BatchHeader}
    {chain : ChainView} {names : List String}
    (h : s.advance scope header chain = .ok (names, t)) (hshare : m.share w = s.share w)
    (hsame : ∀ row ∈ (s.share w).wallets, scope'.covers row = scope.covers row)
    (hothers : ∀ row ∈ m.wallets, row.id ≠ w → scope'.covers row = false) :
    ∃ m', m.advance scope' header chain =
        .ok (((s.moving scope header).filter (·.id == w)).map (·.name), m') ∧
      m'.share w = t.share w ∧ ∀ v, v ≠ w → m'.share v = m.share v := by
  cases header with
  | none =>
    cases h
    exact ⟨m, rfl, hshare, fun _ _ => rfl⟩
  | some header =>
    have hwallets : m.wallets.filter (·.id == w) = s.wallets.filter (·.id == w) :=
      congrArg Store.wallets hshare
    have hmoves := moves_advance hs h
    have hown : ∀ row ∈ m.wallets, scope'.covers row = true → row.id = w := by
      intro row hrow hcovers
      by_contra hne
      rw [hothers row hrow hne] at hcovers
      cases hcovers
    have hbuild : ∀ row ∈ m.wallets, scope'.covers row = true →
        ∃ locator, BlockLocator.build header.tip chain = .ok locator := by
      intro row hrow hcovers
      have hmem : row ∈ s.wallets.filter (·.id == w) := by
        rw [← hwallets]
        exact List.mem_filter.2 ⟨hrow, beq_iff_eq.2 (hown row hrow hcovers)⟩
      rw [hsame row hmem] at hcovers
      obtain ⟨hashes, hread, -⟩ := hmoves
      obtain ⟨locator, hlocator, -⟩ := hread row (List.mem_filter.1 hmem).1 hcovers
      exact ⟨locator, hlocator⟩
    obtain ⟨names', m', hadvance⟩ := exists_advance hbuild
    have hmoves' := moves_advance hm hadvance
    refine ⟨m', ?_, ?_, ?_⟩
    · have hmoving : m.wallets.filter scope'.covers =
          (s.wallets.filter scope.covers).filter (·.id == w) := by
        calc m.wallets.filter scope'.covers
            = (m.wallets.filter (·.id == w)).filter scope'.covers := by
              rw [List.filter_filter]
              refine List.filter_congr fun row hrow => ?_
              cases hcovers : scope'.covers row with
              | false => rw [Bool.false_and]
              | true => rw [hown row hrow hcovers, beq_self_eq_true, Bool.true_and]
          _ = (s.wallets.filter (·.id == w)).filter scope.covers := by
              rw [hwallets]
              exact List.filter_congr hsame
          _ = (s.wallets.filter scope.covers).filter (·.id == w) := List.filter_comm _ _ _
      rw [hadvance, names_of_advance hadvance, moving, moving, hmoving]
    · have hmoved : m'.wallets.filter (·.id == w) = t.wallets.filter (·.id == w) := by
        have hhere := hmoves'.filter w
        rw [hwallets] at hhere
        exact hhere.eq ((hmoves.filter w).congr hsame) rfl
      rw [frame_advance hadvance, frame_advance h]
      exact share_congr hmoved (congrArg Store.accounts hshare) (congrArg Store.addresses hshare)
        (congrArg Store.ledger hshare)
    · intro v hv
      have hstay : m'.wallets.filter (·.id == v) = m.wallets.filter (·.id == v) := by
        refine (hmoves'.filter v).eq_self fun row hrow => ?_
        obtain ⟨hmem, hid⟩ := List.mem_filter.1 hrow
        exact hothers row hmem fun heq => hv ((beq_iff_eq.1 hid).symm.trans heq)
      rw [frame_advance hadvance]
      exact share_congr hstay rfl rfl rfl

/-! ## Applying a batch to one wallet -/

/-- If only one wallet takes part, all that is spent is of that wallet. -/
theorem fst_matchSpends_of_others (hothers : ∀ v, v ≠ w → s.inScope scope v = false) (batch : Batch) :
    (s.matchSpends scope batch).1 = ((s.share w).matchSpends scope batch).1 := by
  have hown : ∀ r ∈ s.ledger.filter (s.isSpentBy scope batch.spends), r.isOf w = true := by
    intro r hr
    have hscope := inScope_of_isSpentBy (List.mem_filter.1 hr).2
    rw [LedgerRow.isOf, beq_iff_eq]
    by_contra hne
    rw [hothers _ hne] at hscope
    cases hscope
  rw [← (share_matchSpends inScope_share batch).2, List.countP_eq_length.2 hown]
  rfl

/-- In a store that holds a wallet, no other wallet has its name. -/
theorem WellFormed.covers_only (hm : m.WellFormed) {row : WalletRow} (hrow : row ∈ m.wallets)
    (parent : Option Hash256) :
    (∀ other ∈ m.wallets, other.id ≠ row.id → (Scope.mk (some row.name) parent).covers other = false) ∧
      ∀ v, v ≠ row.id → m.inScope ⟨some row.name, parent⟩ v = false := by
  have hothers : ∀ other ∈ m.wallets, other.id ≠ row.id →
      (Scope.mk (some row.name) parent).covers other = false := by
    intro other hother hne
    have hname : (row.name == other.name) = false := by
      rw [beq_eq_false_iff_ne]
      intro heq
      exact hne (congrArg WalletRow.id (List.inj_on_of_nodup_map hm.wallet_names hother hrow heq.symm))
    rw [Scope.covers, Option.all_some, hname, Bool.false_and]
  refine ⟨hothers, fun v hv => inScope_eq_false_iff.2 fun other hother hid => ?_⟩
  exact hothers other hother fun heq => hv (hid.symm.trans heq)

/-- **What a batch does to all wallets it does to each of them**, if it is applied to this wallet alone
in a store that holds the same rows of it. All other wallets are left. -/
theorem exists_tally (hs : s.WellFormed) {config : Config} (hmode : config.mode = .allWallets)
    {batch : Batch} {header : Option BatchHeader} {chain : ChainView} {outcome : BatchOutcome}
    (h : s.applyBatch config batch header chain = .ok (outcome, t)) :
    ∃ tally rounds, outcome = Tally.outcome tally rounds ∧ tally.Within (s.wallets.map (·.id)) ∧
      ∀ {m : Store} {row : WalletRow}, row ∈ s.wallets → m.WellFormed →
        m.share row.id = s.share row.id → ∃ rounds' m',
        m.applyBatch (config.only row.name) batch header chain =
          .ok ((tally.part row.id).outcome rounds', m') ∧
        m'.share row.id = t.share row.id ∧ ∀ v, v ≠ row.id → m'.share v = m.share v := by
  obtain ⟨found, d, names, hrounds, hmoved, rfl⟩ := applyBatch_eq_ok_iff.1 h
  obtain ⟨keys, hkeys, hcovered, hshares⟩ := rounds_share hs hrounds
  have hd := wellFormed_rounds hs hrounds
  have hwallets := (frame_rounds hrounds).1
  have hpresent : ∀ v, s.inScope (Scope.ofBatch config header) v = true → v ∈ s.wallets.map (·.id) := by
    intro v hv
    obtain ⟨row, hrow, hid⟩ := List.any_eq_true.1 hv
    rw [Bool.and_eq_true, beq_iff_eq] at hid
    exact List.mem_map.2 ⟨row, hrow, hid.1⟩
  have hmoving : (d.matchSpends (Scope.ofBatch config header) batch).2.moving
      (Scope.ofBatch config header) header = s.moving (Scope.ofBatch config header) header :=
    moving_congr hwallets _ _
  refine ⟨⟨keys, d.ledger.filter (d.isSpentBy (Scope.ofBatch config header) batch.spends),
    found.created, s.moving (Scope.ofBatch config header) header⟩, found.iterations, ?_, ?_, ?_⟩
  · rw [hkeys, names_of_advance hmoved, hmoving]
    rfl
  · constructor
    case deposits => exact fun k hk => hpresent _ (hcovered k hk)
    case spends =>
      intro r hr
      have hscope := inScope_of_isSpentBy (List.mem_filter.1 hr).2
      rw [inScope_congr hwallets] at hscope
      exact hpresent _ hscope
    case created =>
      intro a ha
      have hmem : a ∈ d.addresses := by
        rw [(frame_rounds hrounds).2.1]
        exact List.mem_append_right _ ha
      obtain ⟨row, hrow, hid⟩ := hd.exists_wallet hmem
      rw [hwallets] at hrow
      exact List.mem_map.2 ⟨row, hrow, hid⟩
    case moved =>
      intro row hrow
      cases header with
      | none => cases hrow
      | some header => exact List.mem_map.2 ⟨row, (List.mem_filter.1 hrow).1, rfl⟩
  · intro m row hrow hm hshare
    have hmember : row ∈ m.wallets := by
      have hown : row ∈ (m.share row.id).wallets := by
        rw [hshare]
        exact List.mem_filter.2 ⟨hrow, beq_self_eq_true row.id⟩
      exact (List.mem_filter.1 hown).1
    obtain ⟨hothers, halone⟩ := hm.covers_only hmember (header.map (·.parent))
    -- for the wallet itself the mode makes no difference
    have hcovers : ∀ other ∈ s.wallets.filter (·.id == row.id),
        (Scope.ofBatch (config.only row.name) header).covers other =
          (Scope.ofBatch config header).covers other := by
      intro other hother
      obtain ⟨hmem, hid⟩ := List.mem_filter.1 hother
      rw [hs.eq_of_wallet_id hmem hrow (beq_iff_eq.1 hid)]
      simp only [Scope.covers, Scope.ofBatch, Config.only, hmode, BatchMode.walletName,
        Option.all_some, Option.all_none, beq_self_eq_true]
    have hscope : (s.share row.id).inScope (Scope.ofBatch (config.only row.name) header) row.id =
        s.inScope (Scope.ofBatch config header) row.id := by
      rw [inScope_share, hs.inScope_eq hrow, hs.inScope_eq hrow]
      exact hcovers row (List.mem_filter.2 ⟨hrow, beq_self_eq_true row.id⟩)
    obtain ⟨found', hround, hdeposits, hcreated⟩ := hshares row.id _ hscope
    have hpools : s.pools.filter (·.wallet == row.id) = m.pools.filter (·.wallet == row.id) := by
      rw [← pools_share, ← pools_share, hshare]
    rw [hpools, ← hshare] at hround
    obtain ⟨d', hround', hd', hrest⟩ :=
      rounds_of_share halone (fun k hk => absurd hk List.not_mem_nil) hround
    have hwallets' := (frame_rounds hround').1
    have halone' : ∀ v, v ≠ row.id →
        d'.inScope (Scope.ofBatch (config.only row.name) header) v = false := by
      intro v hv
      rw [inScope_congr hwallets']
      exact halone v hv
    have hdscope : (d.share row.id).inScope (Scope.ofBatch (config.only row.name) header) row.id =
        d.inScope (Scope.ofBatch config header) row.id := by
      rw [inScope_share, inScope_congr hwallets, inScope_congr hwallets, ← hscope, inScope_share]
    have hspent : (d'.matchSpends (Scope.ofBatch (config.only row.name) header) batch).2.share row.id =
        (d.matchSpends (Scope.ofBatch config header) batch).2.share row.id := by
      rw [(share_matchSpends hdscope batch).1, (share_matchSpends inScope_share batch).1, hd']
    have hcount := (share_matchSpends hdscope batch).2
    rw [← hd', ← fst_matchSpends_of_others halone'] at hcount
    obtain ⟨m', hadvance, hm', hstay⟩ := advance_share (wellFormed_matchSpends hd)
      (wellFormed_matchSpends (wellFormed_rounds hm hround')) hmoved hspent
      (fun other hother => hcovers other (hwallets ▸ hother))
      (fun other hother => hothers other (hwallets' ▸ hother))
    refine ⟨found'.iterations, m', applyBatch_eq_ok_iff.2 ⟨found', d', _, hround', hadvance, ?_⟩, hm',
      fun v hv => ?_⟩
    · rw [hdeposits, ← hcount, hcreated, hmoving, List.countP_eq_length_filter,
        List.countP_eq_length_filter]
      rfl
    · exact ((hstay v hv).trans (share_matchSpends_of_not_inScope (halone' v hv) batch)).trans
        (hrest v hv)

end Store

namespace Store

variable {s t : Store}

theorem accounts_applyBatch {config : Config} {batch : Batch} {header : Option BatchHeader}
    {chain : ChainView} {outcome : BatchOutcome}
    (h : s.applyBatch config batch header chain = .ok (outcome, t)) : t.accounts = s.accounts := by
  obtain ⟨found, d, names, hrounds, hmoved⟩ := parts_of_applyBatch h
  exact (frame_moved hmoved).1.trans (frame_rounds hrounds).2.2

/-- Stores with the same shares hold the same rows, and the same list of wallets. -/
theorem tables_of_shares (hs : s.WellFormed) (ht : t.WellFormed) (h : ∀ w, s.share w = t.share w) :
    s.wallets = t.wallets ∧ s.addresses.Perm t.addresses ∧ s.ledger.Perm t.ledger := by
  have hwallets : s.wallets.Perm t.wallets :=
    perm_of_filter_eq fun w => congrArg Store.wallets (h w)
  refine ⟨?_, perm_of_filter_eq fun w => congrArg Store.addresses (h w),
    perm_of_filter_eq fun w => congrArg Store.ledger (h w)⟩
  refine List.Perm.eq_of_pairwise ?_ hs.pairwise_wallet_ids ht.pairwise_wallet_ids hwallets
  intro v w _ _ hlt hgt
  exact absurd hlt (Int.not_lt.2 (Int.le_of_lt hgt))

end Store

namespace Indexer

open Store

variable {ix ix' : Indexer} {batch : Batch} {header : Option BatchHeader} {chain : ChainView}
variable {outcome : BatchOutcome} {s t : Store} {config : Config} {tally : Tally}

/-- Opens the store anew so that batches are matched against one wallet. -/
def only (ix : Indexer) (name : String) : Indexer := ix.reopen ix.network (ix.config.only name)

/-- Applies a batch to one wallet after another, each time in the mode that names it. -/
def processEachWallet (ix : Indexer) (batch : Batch) (header : Option BatchHeader)
    (chain : ChainView) : List String → Result (List BatchOutcome × Indexer)
  | [] => .ok ([], ix)
  | name :: names => do
    let (outcome, next) ← (ix.only name).processBatch batch header chain
    let (outcomes, last) ← next.processEachWallet batch header chain names
    return (outcome :: outcomes, last)

theorem store_only (ix : Indexer) (name : String) : (ix.only name).store = ix.store := if_pos rfl

/-- **A run over wallets** takes the share of each of them from one store to the other and leaves all
other shares. -/
theorem exists_processEachWallet
    (hstep : ∀ {m : Store} {row : WalletRow}, row ∈ s.wallets → m.WellFormed →
      m.share row.id = s.share row.id → ∃ rounds m',
      m.applyBatch (config.only row.name) batch header chain =
        .ok ((tally.part row.id).outcome rounds, m') ∧
      m'.share row.id = t.share row.id ∧ ∀ v, v ≠ row.id → m'.share v = m.share v)
    {rows : List WalletRow} (hrows : ∀ row ∈ rows, row ∈ s.wallets) (hnodup : (rows.map (·.id)).Nodup)
    (hwell : ix.store.WellFormed) (hconfig : ∀ name, ix.config.only name = config.only name)
    (hshare : ∀ row ∈ rows, ix.store.share row.id = s.share row.id) :
    ∃ outcomes last, ix.processEachWallet batch header chain (rows.map (·.name)) =
        .ok (outcomes, last) ∧
      last.store.WellFormed ∧ last.store.accounts = ix.store.accounts ∧
      (∃ rounds, BatchOutcome.total outcomes = (tally.parts (rows.map (·.id))).outcome rounds) ∧
      (∀ row ∈ rows, last.store.share row.id = t.share row.id) ∧
      ∀ v, v ∉ rows.map (·.id) → last.store.share v = ix.store.share v := by
  induction rows generalizing ix with
  | nil =>
    exact ⟨[], ix, rfl, hwell, rfl, ⟨0, rfl⟩, fun row hrow => absurd hrow List.not_mem_nil,
      fun _ _ => rfl⟩
  | cons row rows ih =>
    rw [List.map_cons, List.nodup_cons] at hnodup
    obtain ⟨hfresh, hnodup⟩ := hnodup
    obtain ⟨rounds, m, happly, hmoved, hstay⟩ :=
      hstep (hrows row List.mem_cons_self) hwell (hshare row List.mem_cons_self)
    have hne : ∀ other ∈ rows, other.id ≠ row.id := fun other hother heq =>
      hfresh (List.mem_map.2 ⟨other, hother, heq⟩)
    obtain ⟨next, hnext, hstore, hmode⟩ : ∃ next, (ix.only row.name).processBatch batch header chain =
        .ok ((tally.part row.id).outcome rounds, next) ∧ next.store = m ∧
          next.config = ix.config.only row.name := by
      rw [← hconfig, ← store_only ix row.name] at happly
      exact ⟨_, bind_eq_ok_iff.2 ⟨_, happly, rfl⟩, rfl, rfl⟩
    subst hstore
    obtain ⟨outcomes, last, hrest, hlast, haccounts, ⟨rounds', htotal⟩, hdone, hleft⟩ := ih
      (fun other hother => hrows other (List.mem_cons_of_mem _ hother)) hnodup
      (wellFormed_applyBatch hwell happly)
      (fun name => by
        rw [hmode, ← hconfig]
        rfl)
      (fun other hother => (hstay other.id (hne other hother)).trans
        (hshare other (List.mem_cons_of_mem _ hother)))
    refine ⟨(tally.part row.id).outcome rounds :: outcomes, last, ?_, hlast,
      haccounts.trans (accounts_applyBatch happly), ⟨rounds + rounds', ?_⟩, ?_, ?_⟩
    · exact bind_eq_ok_iff.2 ⟨_, hnext, bind_eq_ok_iff.2 ⟨_, hrest, rfl⟩⟩
    · rw [List.map_cons, ← Tally.outcome_parts_cons, ← htotal]
      rfl
    · intro other hother
      rcases List.mem_cons.1 hother with rfl | hother
      · rw [hleft _ hfresh, hmoved]
      · exact hdone other hother
    · intro v hv
      rw [List.map_cons, List.mem_cons, not_or] at hv
      rw [hleft v hv.2, hstay v hv.1]

/-- **Matching all wallets at once is matching one after another**, in any order. Each of these
batches succeeds. They leave the wallets, the addresses and the ledger as the one batch does, they
record as many deposits and spends, and they derive the same scripts and move the same wallets. -/
theorem all_wallets_agree (hreach : ix.Reachable) (hmode : ix.config.mode = .allWallets)
    (h : ix.processBatch batch header chain = .ok (outcome, ix')) {names : List String}
    (hnames : names.Perm (ix.store.wallets.map (·.name))) :
    ∃ outcomes last, ix.processEachWallet batch header chain names = .ok (outcomes, last) ∧
      last.store.wallets = ix'.store.wallets ∧ last.store.accounts = ix'.store.accounts ∧
      last.store.addresses.Perm ix'.store.addresses ∧ last.store.ledger.Perm ix'.store.ledger ∧
      (∀ wallet, last.store.share wallet = ix'.store.share wallet) ∧
      (BatchOutcome.total outcomes).deposits = outcome.deposits ∧
      (BatchOutcome.total outcomes).spends = outcome.spends ∧
      (BatchOutcome.total outcomes).newScripts.Perm outcome.newScripts ∧
      (BatchOutcome.total outcomes).advanced.Perm outcome.advanced := by
  have hs := hreach.wellFormed
  obtain ⟨happly, -⟩ := applyBatch_of_processBatch h
  have hs' := wellFormed_applyBatch hs happly
  -- an order of the names is one of the rows
  have horder := congrFun (congrFun (List.eq_map_comp_perm WalletRow.name) names) ix.store.wallets
  obtain ⟨rows, rfl, hrows⟩ := horder.mpr hnames
  have hids : (rows.map (·.id)).Perm (ix.store.wallets.map (·.id)) := hrows.map _
  obtain ⟨tally, rounds, rfl, hwithin, hstep⟩ := exists_tally hs hmode happly
  obtain ⟨outcomes, last, hrun, hlast, haccounts, ⟨rounds', htotal⟩, hdone, hleft⟩ :=
    exists_processEachWallet hstep (fun row hrow => hrows.mem_iff.1 hrow)
      (hids.nodup_iff.2 hs.nodup_wallet_ids) hs (fun _ => rfl) (fun _ _ => rfl)
  have hshares : ∀ w, last.store.share w = ix'.store.share w := by
    intro w
    by_cases hw : w ∈ rows.map (·.id)
    · obtain ⟨row, hrow, rfl⟩ := List.mem_map.1 hw
      exact hdone row hrow
    · -- there is no such wallet
      have hscope : ix.store.inScope (Scope.ofBatch ix.config header) w = false := by
        refine inScope_eq_false_iff.2 fun row hrow hid => ?_
        exact absurd (List.mem_map.2 ⟨row, hrows.mem_iff.2 hrow, hid⟩) hw
      rw [hleft w hw, share_applyBatch_of_not_inScope hs hscope happly]
  obtain ⟨hwallets, haddresses, hledger⟩ := tables_of_shares hlast hs' hshares
  have houtcome := hwithin.outcome_parts hids hs.nodup_wallet_ids rounds' rounds
  rw [← htotal] at houtcome
  exact ⟨outcomes, last, hrun, hwallets, haccounts.trans (accounts_applyBatch happly).symm,
    haddresses, hledger, hshares, houtcome⟩

/-- Two wallets that share an extended key receive the same output, at once or the second one first. -/
theorem all_wallets_agree_shared : Sample.sharing.Reachable ∧ ∃ outcome ix' outcomes last,
    Sample.sharing.processBatch (Batch.ofBlock Sample.paying)
      (some ⟨Hash256.zero, Sample.paying.ref⟩) Sample.view = .ok (outcome, ix') ∧
    outcome.deposits = 2 ∧ outcome.advanced = ["savings", "spare"] ∧
    Sample.sharing.processEachWallet (Batch.ofBlock Sample.paying)
      (some ⟨Hash256.zero, Sample.paying.ref⟩) Sample.view ["spare", "savings"] =
        .ok (outcomes, last) ∧
    last.store.wallets = ix'.store.wallets ∧ last.store.ledger.Perm ix'.store.ledger ∧
    (BatchOutcome.total outcomes).deposits = 2 := by
  have hanswer : (Sample.sharing.processBatch (Batch.ofBlock Sample.paying)
      (some ⟨Hash256.zero, Sample.paying.ref⟩) Sample.view).map
        (fun answer => (answer.1.deposits, answer.1.advanced)) = .ok (2, ["savings", "spare"]) := by
    decide +kernel
  obtain ⟨⟨outcome, ix'⟩, hcall, hfound⟩ := map_eq_ok_iff.1 hanswer
  obtain ⟨hdeposits, hadvanced⟩ := Prod.mk.inj hfound
  have hnames : ["spare", "savings"].Perm (Sample.sharing.store.wallets.map (·.name)) :=
    .swap "savings" "spare" []
  obtain ⟨outcomes, last, hrun, hwallets, -, -, hledger, -, htotal, -⟩ :=
    all_wallets_agree Sample.reachable_sharing rfl hcall hnames
  exact ⟨Sample.reachable_sharing, outcome, ix', outcomes, last, hcall, hdeposits, hadvanced, hrun,
    hwallets, hledger, htotal.trans hdeposits⟩

end Indexer

end WalletLedger
