import Mathlib.Data.List.Perm.Basic
import Mathlib.Data.List.ProdSigma
import WalletLedger.Proofs.TopUp

/-!
# How long matching goes on

Matching goes on after a round only if the round has extended a pool. The table that the next round is
matched against has then grown, so what bounds the rounds is what each of them uses up: room in a pool,
which ends where derivation does; a key, which is applied once; and, if the addresses of a pool have
scripts of their own, an output and a pool in which it pays an address for the first time.

* `Store.GoesOn`, `Store.Lasts`: a round that is not the last one, and several in a row.
* `Store.exists_lasts`: matching is some such rounds and a last one, which is refused or extends no pool.
* `Store.Lasts.totalRoom_le`, `Store.Lasts.matched`, `Store.Lasts.exists_pairs`: the three bounds, each
  from what one round does.
* `Store.matching_ends`: matching ends, and after how many rounds.
-/

namespace WalletLedger

namespace Store

variable {scope : Scope} {buffer : UInt64} {outputs : List StagedOutput} {pools : List AddressGroup}
variable {s s₀ t : Store} {k : LedgerKey}

/-- How far matching has come: the keys that it has applied, and the store. -/
structure Progress where
  applied : List LedgerKey
  store : Store

namespace Progress

/-- The deposits that the next round records. -/
def new (scope : Scope) (outputs : List StagedOutput) (p : Progress) : List Deposit :=
  p.store.newDeposits scope outputs p.applied

/-- What the next round adds to the pools that its deposits touch. -/
def extended (scope : Scope) (buffer : UInt64) (outputs : List StagedOutput)
    (pools : List AddressGroup) (p : Progress) : Result (List Address × Store) :=
  extendPools buffer (p.store.touchedPools pools (p.new scope outputs))
    (recordAll (p.new scope outputs) p.store).2

end Progress

/-- A round after which matching goes on has added addresses. -/
structure GoesOn (scope : Scope) (buffer : UInt64) (outputs : List StagedOutput)
    (pools : List AddressGroup) (p q : Progress) : Prop where
  applied : q.applied = p.applied ++ (p.new scope outputs).map (·.key)
  grown : ∃ created, created ≠ [] ∧
    p.extended scope buffer outputs pools = .ok (created, q.store)

/-- Rounds in a row after each of which matching goes on. -/
inductive Lasts (scope : Scope) (buffer : UInt64) (outputs : List StagedOutput)
    (pools : List AddressGroup) : Nat → Progress → Progress → Prop
  | none (p : Progress) : Lasts scope buffer outputs pools 0 p p
  | round {n : Nat} {p q r : Progress} (first : GoesOn scope buffer outputs pools p q)
      (rest : Lasts scope buffer outputs pools n q r) : Lasts scope buffer outputs pools (n + 1) p r

variable {p q r : Progress} {n : Nat}

theorem goesOn_of_extendPools {applied : List LedgerKey} {a : Address} {created : List Address}
    (h : extendPools buffer (s.touchedPools pools (s.newDeposits scope outputs applied))
      (recordAll (s.newDeposits scope outputs applied) s).2 = .ok (a :: created, t)) :
    GoesOn scope buffer outputs pools ⟨applied, s⟩
      ⟨applied ++ (s.newDeposits scope outputs applied).map (·.key), t⟩ where
  applied := rfl
  grown := ⟨_, List.cons_ne_nil _ _, h⟩

/-- **Matching is some rounds after which it goes on, and a last one**: this is refused, or it extends
no pool. -/
theorem exists_lasts (applied : List LedgerKey) (s : Store) :
    ∃ n q, Lasts scope buffer outputs pools n ⟨applied, s⟩ q ∧
      ((∃ e, q.extended scope buffer outputs pools = .error e ∧
          s.matchDeposits scope buffer outputs pools applied = .error e) ∨
        ∃ found t, q.extended scope buffer outputs pools = .ok ([], t) ∧
          s.matchDeposits scope buffer outputs pools applied = .ok (found, t) ∧
          found.iterations = n + 1) := by
  fun_induction matchDeposits scope buffer outputs pools applied s with
  | case1 applied s new =>
    rename_i hnone
    refine ⟨0, _, .none _, .inr ⟨_, _, ?_, rfl, rfl⟩⟩
    have hnew : (⟨applied, s⟩ : Progress).new scope outputs = [] := hnone
    rw [Progress.extended, hnew, touchedPools_nil]
    rfl
  | case2 applied s new hsome recorded e hextend =>
    exact ⟨0, _, .none _, .inl ⟨e, hextend, rfl⟩⟩
  | case3 applied s new hsome recorded extended hextend =>
    exact ⟨0, _, .none _, .inr ⟨_, _, hextend, rfl, rfl⟩⟩
  | case4 applied s new hsome recorded a created extended hextend e hrest ih =>
    obtain ⟨n, q, hlasts, hend⟩ := ih
    refine ⟨n + 1, q, .round (goesOn_of_extendPools hextend) hlasts, ?_⟩
    rcases hend with ⟨e', hlast, herror⟩ | ⟨found, t, -, hok, -⟩
    · rw [hrest] at herror
      cases herror
      exact .inl ⟨e, hlast, rfl⟩
    · rw [hrest] at hok
      cases hok
  | case5 applied s new hsome recorded a created extended hextend rest last hrest ih =>
    obtain ⟨n, q, hlasts, hend⟩ := ih
    refine ⟨n + 1, q, .round (goesOn_of_extendPools hextend) hlasts, ?_⟩
    rcases hend with ⟨e', -, herror⟩ | ⟨found, t, hlast, hok, hcount⟩
    · rw [hrest] at herror
      cases herror
    · rw [hrest] at hok
      cases hok
      exact .inr ⟨_, _, hlast, rfl, congrArg (· + 1) hcount⟩

/-! ## Room -/

/-- A round after which matching goes on has used up room in the pools. -/
theorem GoesOn.totalRoom_lt (h : GoesOn scope buffer outputs pools p q) :
    q.store.totalRoom pools < p.store.totalRoom pools := by
  obtain ⟨created, hne, hextend⟩ := h.grown
  rw [← totalRoom_congr (addresses_recordAll (p.new scope outputs) p.store) pools]
  exact totalRoom_extendPools_lt (fun g hg => (List.mem_filter.1 hg).1) hextend hne

/-- It has added addresses. -/
theorem GoesOn.addresses (h : GoesOn scope buffer outputs pools p q) :
    ∃ created, created ≠ [] ∧ q.store.addresses = p.store.addresses ++ created := by
  obtain ⟨created, hne, hextend⟩ := h.grown
  exact ⟨created, hne, (frame_round hextend).2.1⟩

theorem Lasts.totalRoom_le (h : Lasts scope buffer outputs pools n p q) :
    n + q.store.totalRoom pools ≤ p.store.totalRoom pools := by
  induction h with
  | none => exact Nat.le_of_eq (Nat.zero_add _)
  | round hfirst _ ih =>
    have hlt := hfirst.totalRoom_lt
    omega

theorem Lasts.addresses (h : Lasts scope buffer outputs pools n p q) :
    ∃ created, n ≤ created.length ∧ q.store.addresses = p.store.addresses ++ created := by
  induction h with
  | none => exact ⟨[], Nat.le_refl 0, (List.append_nil _).symm⟩
  | round hfirst _ ih =>
    obtain ⟨created, hne, hadds⟩ := hfirst.addresses
    obtain ⟨more, hlength, hmore⟩ := ih
    refine ⟨created ++ more, ?_, by rw [hmore, hadds, List.append_assoc]⟩
    have hpos := List.length_pos_iff.2 hne
    rw [List.length_append]
    omega

theorem totalRoom_le_limit (s : Store) (pools : List AddressGroup) :
    s.totalRoom pools ≤ ExtendedKey.numberLimit * pools.length := by
  induction pools with
  | nil => exact Nat.zero_le _
  | cons g pools ih =>
    have hroom : s.room g ≤ ExtendedKey.numberLimit := Nat.sub_le _ _
    rw [List.length_cons, Nat.mul_succ]
    simp only [totalRoom, List.foldr_cons] at ih ⊢
    omega

/-! ## Keys -/

/-- A round applies keys that were not applied before, each once. -/
theorem nodup_applied {applied : List LedgerKey} (h : applied.Nodup) :
    (applied ++ (s.newDeposits scope outputs applied).map (·.key)).Nodup := by
  refine h.append (nodup_keys_unapplied applied _) fun k hk hnew => ?_
  obtain ⟨d, hd, rfl⟩ := List.mem_map.1 hnew
  exact (isDue_of_mem_newDeposits hd).2.2 hk

/-- A round after which matching goes on has touched a pool. -/
theorem GoesOn.touchedPools_ne_nil (h : GoesOn scope buffer outputs pools p q) :
    p.store.touchedPools pools (p.new scope outputs) ≠ [] := by
  obtain ⟨created, hne, hextend⟩ := h.grown
  intro hnil
  rw [Progress.extended, hnil] at hextend
  exact hne (Prod.mk.inj (Except.ok.inj hextend)).1.symm

/-- It has new deposits. -/
theorem GoesOn.new_ne_nil (h : GoesOn scope buffer outputs pools p q) :
    p.new scope outputs ≠ [] := by
  intro hnil
  refine h.touchedPools_ne_nil ?_
  rw [hnil, touchedPools_nil]

/-- **Rounds apply at least one key each**, none of them twice, and leave what matching leaves. -/
theorem Lasts.matched (h : Lasts scope buffer outputs pools n p q) (hs₀ : s₀.WellFormed)
    (hp : p.store.WellFormed) (hm : Matched scope outputs s₀ p.applied p.store)
    (hnodup : p.applied.Nodup) :
    q.store.WellFormed ∧ Matched scope outputs s₀ q.applied q.store ∧ q.applied.Nodup ∧
      p.applied.length + n ≤ q.applied.length := by
  induction h with
  | none => exact ⟨hp, hm, hnodup, Nat.le_refl _⟩
  | round hfirst _ ih =>
    have hne := hfirst.new_ne_nil
    obtain ⟨happlied, created, -, hextend⟩ := hfirst
    obtain ⟨hq, hmatched, hkeys, hlength⟩ := ih (wellFormed_round hp rfl hextend)
      (happlied ▸ hm.round hs₀ hp rfl hextend) (happlied ▸ nodup_applied hnodup)
    refine ⟨hq, hmatched, hkeys, ?_⟩
    have hpos := List.length_pos_iff.2 hne
    rw [happlied, List.length_append, List.length_map] at hlength
    omega

/-- At the end the applied keys are those of the deposits that are due and were not confirmed. -/
theorem Matched.mem_iff {applied : List LedgerKey} (hm : Matched scope outputs s₀ applied t)
    (hs₀ : s₀.WellFormed) (ht : t.WellFormed) (hnone : t.newDeposits scope outputs applied = []) :
    k ∈ applied ↔ ∃ d, t.IsDue scope outputs d ∧ d.key = k ∧ s₀.isConfirmed k = false := by
  constructor
  · intro hk
    obtain ⟨hconf, d, hd, hkey, -⟩ := hm.recorded k hk
    exact ⟨d, hd, hkey, hconf⟩
  · rintro ⟨d, hd, rfl, hconf⟩
    by_contra hk
    rw [← hm.isConfirmed_eq hs₀ ht hk] at hconf
    exact hk (mem_applied_of_newDeposits hnone d (mem_deposits.2 ⟨hd, hconf⟩))

/-! ## Outputs and pools -/

/-- Addresses of one pool that have one script are one address. -/
def ScriptsApart (s : Store) : Prop :=
  ∀ a ∈ s.addresses, ∀ b ∈ s.addresses, a.id.group = b.id.group →
    a.scripts.toKeyHash = b.scripts.toKeyHash → a.id = b.id

instance (s : Store) : Decidable s.ScriptsApart :=
  inferInstanceAs (Decidable (∀ a ∈ s.addresses, ∀ b ∈ s.addresses, _ → _ → a.id = b.id))

theorem ScriptsApart.mono (h : t.ScriptsApart) (hsub : ∀ a ∈ s.addresses, a ∈ t.addresses) :
    s.ScriptsApart := fun a ha b hb => h a (hsub a ha) b (hsub b hb)

/-- It is so if different indexes of an account derive different scripts. -/
theorem WellFormed.scriptsApart (hs : s.WellFormed) (hderive : ∀ account ∈ s.accounts,
    ∀ kind i j scripts scripts', account.derive kind i = .ok scripts →
      account.derive kind j = .ok scripts' → scripts.toKeyHash = scripts'.toKeyHash → i = j) :
    s.ScriptsApart := by
  intro a ha b hb hgroup hscript
  obtain ⟨account, haccount, hwallet, hindex, hscripts⟩ := hs.address_owner a ha
  obtain ⟨account', haccount', hwallet', hindex', hscripts'⟩ := hs.address_owner b hb
  have hsame : account' = account := by
    refine List.inj_on_of_nodup_map hs.account_keys haccount' haccount ?_
    rw [hwallet, hindex, hwallet', hindex', hgroup]
  rw [hsame, ← hgroup] at hscripts'
  have hid := hderive account haccount _ _ _ _ _ hscripts hscripts' hscript
  exact congrArg₂ AddressId.mk hgroup hid

/-- No address of a pool that a script pays has a row. -/
def Unpaid (s : Store) (g : AddressGroup) (script : Script) : Prop :=
  ∀ a ∈ s.addresses, a.id.group = g → a.scripts.toKeyHash = script → s.isUsed a.id = false

/-- A round uses addresses, and frees none. -/
theorem GoesOn.isUsed (h : GoesOn scope buffer outputs pools p q) {id : AddressId} :
    q.store.isUsed id = true ↔
      p.store.isUsed id = true ∨ ∃ d ∈ p.new scope outputs, d.key.address = id := by
  obtain ⟨-, created, -, hextend⟩ := h
  rw [isUsed_iff, isUsed_iff, (frame_round hextend).2.2.1]
  constructor
  · rintro ⟨k, hk, hid⟩
    rcases mem_keys_recordAll.1 hk with hk | hk
    · exact .inl ⟨k, hk, hid⟩
    · obtain ⟨d, hd, rfl⟩ := List.mem_map.1 hk
      exact .inr ⟨d, hd, hid⟩
  · rintro (⟨k, hk, hid⟩ | ⟨d, hd, hid⟩)
    · exact ⟨k, mem_keys_recordAll.2 (.inl hk), hid⟩
    · exact ⟨d.key, mem_keys_recordAll.2 (.inr (List.mem_map_of_mem hd)), hid⟩

theorem GoesOn.unpaid (h : GoesOn scope buffer outputs pools p q) {g : AddressGroup} {script : Script}
    (hq : q.store.Unpaid g script) : p.store.Unpaid g script := by
  intro a ha hgroup hscript
  obtain ⟨created, -, hadds⟩ := h.addresses
  have ha' : a ∈ q.store.addresses := by
    rw [hadds]
    exact List.mem_append_left _ ha
  have hunused := hq a ha' hgroup hscript
  by_contra hused
  rw [h.isUsed.2 (.inl (by simpa using hused))] at hunused
  cases hunused

/-- **A round after which matching goes on pays a pool by an output for the first time.** -/
theorem GoesOn.exists_pair (h : GoesOn scope buffer outputs pools p q)
    (hapart : p.store.ScriptsApart) :
    ∃ o ∈ outputs, ∃ g ∈ pools, p.store.Unpaid g o.script ∧ ¬ q.store.Unpaid g o.script := by
  obtain ⟨g, hg⟩ := List.exists_mem_of_ne_nil _ h.touchedPools_ne_nil
  obtain ⟨hpool, hfirst⟩ := List.mem_filter.1 hg
  obtain ⟨d, hd, hunused⟩ := List.any_eq_true.1 hfirst
  rw [Bool.and_eq_true, beq_iff_eq, Bool.not_eq_true'] at hunused
  obtain ⟨⟨o, ho, a, ha, hscript, -, rfl⟩, -⟩ := isDue_of_mem_newDeposits hd
  refine ⟨o, ho, g, hpool, fun b hb hgroup hpaid => ?_, fun hunpaid => ?_⟩
  · -- an address of this pool that the output pays is the one that it is recorded for
    have hid := hapart a ha b hb (hunused.1.trans hgroup.symm) (hscript.trans hpaid.symm)
    rw [← hid]
    exact hunused.2
  · obtain ⟨more, -, hadds⟩ := h.addresses
    have ha' : a ∈ q.store.addresses := by
      rw [hadds]
      exact List.mem_append_left _ ha
    have hused : q.store.isUsed a.id = true := h.isUsed.2 (.inr ⟨_, hd, rfl⟩)
    rw [hunpaid a ha' hunused.1 hscript] at hused
    cases hused

/-- **Rounds pay pools by outputs for the first time**, a pair in each round and none of them twice. -/
theorem Lasts.exists_pairs (h : Lasts scope buffer outputs pools n p q)
    (hapart : q.store.ScriptsApart) :
    ∃ pairs : List (StagedOutput × AddressGroup), pairs.length = n ∧ pairs.Nodup ∧
      ∀ x ∈ pairs, x.1 ∈ outputs ∧ x.2 ∈ pools ∧ p.store.Unpaid x.2 x.1.script := by
  induction h with
  | none => exact ⟨[], rfl, List.nodup_nil, fun x hx => nomatch hx⟩
  | @round n p q r hfirst hrest ih =>
    obtain ⟨pairs, hlength, hnodup, hpairs⟩ := ih hapart
    have hstart : p.store.ScriptsApart := by
      obtain ⟨created, -, hadds⟩ := (Lasts.round hfirst hrest).addresses
      exact hapart.mono fun a ha => hadds ▸ List.mem_append_left _ ha
    obtain ⟨o, ho, g, hg, hopen, hclosed⟩ := hfirst.exists_pair hstart
    refine ⟨(o, g) :: pairs, congrArg (· + 1) hlength, List.nodup_cons.2 ⟨fun hmem => ?_, hnodup⟩,
      fun x hx => ?_⟩
    · -- what is paid already is not paid for the first time later
      exact hclosed (hpairs _ hmem).2.2
    · rcases List.mem_cons.1 hx with rfl | hx
      · exact ⟨ho, hg, hopen⟩
      · obtain ⟨hout, hpool, hunpaid⟩ := hpairs x hx
        exact ⟨hout, hpool, hfirst.unpaid hunpaid⟩

theorem Lasts.le_pairs (h : Lasts scope buffer outputs pools n p q)
    (hapart : q.store.ScriptsApart) : n ≤ outputs.length * pools.length := by
  obtain ⟨pairs, rfl, hnodup, hpairs⟩ := h.exists_pairs hapart
  rw [← List.length_product]
  refine (List.subperm_of_subset hnodup fun x hx => ?_).length_le
  obtain ⟨hout, hpool, -⟩ := hpairs x hx
  exact List.mem_product.2 ⟨hout, hpool⟩

/-- **Matching ends, and after how many rounds.** From a well-formed store, every round after which
matching goes on adds an address to a pool, and no index reaches the limit of derivation. So matching is a
bounded number of such rounds and a last one, with which it is refused or succeeds. If it succeeds, it has
gone on at most once for each key that it has matched, and, if no pool has two addresses of one script
(as `WellFormed.scriptsApart` gives), at most once for each staged output and pool. -/
theorem matching_ends (hs : s.WellFormed) (scope : Scope) (buffer : UInt64)
    (outputs : List StagedOutput) :
    (∀ n q, Lasts scope buffer outputs s.pools n ⟨[], s⟩ q →
      s.addresses.length + n ≤ q.store.addresses.length ∧
      (∀ a ∈ q.store.addresses, a.id.index.toNat < ExtendedKey.numberLimit) ∧
      n ≤ ExtendedKey.numberLimit * s.pools.length) ∧
    (∃ n q, Lasts scope buffer outputs s.pools n ⟨[], s⟩ q ∧
      ((∃ e, q.extended scope buffer outputs s.pools = .error e ∧
          s.matchDeposits scope buffer outputs s.pools [] = .error e) ∨
        ∃ found t, q.extended scope buffer outputs s.pools = .ok ([], t) ∧
          s.matchDeposits scope buffer outputs s.pools [] = .ok (found, t) ∧
          found.iterations = n + 1)) ∧
    ∀ found t, s.matchDeposits scope buffer outputs s.pools [] = .ok (found, t) →
      (∃ keys : List LedgerKey, keys.Nodup ∧
        (∀ k, k ∈ keys ↔ ∃ d, t.IsDue scope outputs d ∧ d.key = k ∧ s.isConfirmed k = false) ∧
        found.iterations ≤ 1 + keys.length) ∧
      (t.ScriptsApart → found.iterations ≤ 1 + outputs.length * s.pools.length) := by
  refine ⟨fun n q hlasts => ⟨?_, fun a ha => ?_, ?_⟩, exists_lasts [] s, fun found t hok => ?_⟩
  · obtain ⟨created, hle, hadds⟩ := hlasts.addresses
    rw [hadds, List.length_append]
    exact Nat.add_le_add_left hle _
  · have hq := (hlasts.matched hs hs (.init s) List.nodup_nil).1
    obtain ⟨account, -, -, -, hderive⟩ := hq.address_owner a ha
    exact (account.scripts_derive hderive).2.1
  · have hroom := hlasts.totalRoom_le
    exact Nat.le_trans (Nat.le_of_add_right_le hroom) (s.totalRoom_le_limit s.pools)
  · obtain ⟨n, q, hlasts, hend⟩ : ∃ n q, Lasts scope buffer outputs s.pools n ⟨[], s⟩ q ∧ _ :=
      exists_lasts [] s
    obtain ⟨hlast, hcount⟩ : q.extended scope buffer outputs s.pools = .ok ([], t) ∧
        found.iterations = n + 1 := by
      rcases hend with ⟨e, -, herror⟩ | ⟨found', t', hlast, hok', hcount⟩
      · rw [hok] at herror
        cases herror
      · rw [hok] at hok'
        cases hok'
        exact ⟨hlast, hcount⟩
    obtain ⟨hq, hm, hnodup, hlength⟩ := hlasts.matched hs hs (.init s) List.nodup_nil
    have ht := wellFormed_round hq rfl hlast
    have hkeys : (q.applied ++ (q.new scope outputs).map (·.key)).Nodup := nodup_applied hnodup
    refine ⟨⟨_, hkeys, fun k => ?_, ?_⟩, fun hapart => ?_⟩
    · exact (hm.round hs hq rfl hlast).mem_iff hs ht (newDeposits_of_quiet rfl hlast)
    · rw [List.length_append]
      rw [List.length_nil] at hlength
      omega
    · have hpairs := hlasts.le_pairs (hapart.mono fun a ha => ?_)
      · omega
      · rw [(frame_round hlast).2.1]
        exact List.mem_append_left _ ha

/-- The cascade: two of its rounds go on, and the bound admits four. -/
theorem matching_ends_cascade : ∃ found t,
    Sample.store.matchDeposits (Scope.ofBatch Sample.config none) Sample.config.topUpBuffer
      Sample.cascade.outputs Sample.store.pools [] = .ok (found, t) ∧ t.ScriptsApart ∧
    found.iterations ≤ 1 + 2 * 2 ∧
    ∃ n q, Lasts (Scope.ofBatch Sample.config none) Sample.config.topUpBuffer Sample.cascade.outputs
      Sample.store.pools n ⟨[], Sample.store⟩ q ∧ found.iterations = n + 1 := by
  obtain ⟨past, hist, -⟩ := Sample.history Sample.config
  have hreach : (Sample.opened Sample.config).Reachable := ⟨_, past, hist⟩
  have hs : Sample.store.WellFormed := hreach.wellFormed
  obtain ⟨ix', hperform, hstore⟩ := map_eq_ok_iff.1 Sample.perform_cascade
  obtain ⟨⟨outcome, _⟩, h, rfl⟩ := map_eq_ok_iff.1 hperform
  obtain ⟨found, t, names, hrounds, hmoved⟩ :=
    parts_of_applyBatch (Indexer.applyBatch_of_processBatch h).1
  have hok : Sample.store.matchDeposits (Scope.ofBatch Sample.config none)
      Sample.config.topUpBuffer Sample.cascade.outputs Sample.store.pools [] = .ok (found, t) :=
    matchDeposits_of_rounds hrounds
  obtain ⟨-, ⟨n, q, hlasts, hend⟩, hsuccess⟩ := matching_ends hs (Scope.ofBatch Sample.config none)
    Sample.config.topUpBuffer Sample.cascade.outputs
  have hapart : t.ScriptsApart := by
    have hdeposited : Sample.deposited.ScriptsApart := by decide +kernel
    refine hdeposited.mono fun a ha => ?_
    rw [← hstore, (frame_moved hmoved).2.1]
    exact ha
  refine ⟨found, t, hok, hapart, (hsuccess found t hok).2 hapart, n, q, hlasts, ?_⟩
  rcases hend with ⟨e, -, herror⟩ | ⟨found', t', -, hok', hcount⟩
  · rw [hok] at herror
    cases herror
  · rw [hok] at hok'
    cases hok'
    exact hcount

end Store

end WalletLedger
