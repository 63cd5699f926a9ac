import Mathlib.Logic.Relation
import WalletLedger.Proofs.History
import WalletLedger.Proofs.Sorted

/-!
# Writes to a store

A store changes in one of three ways: by a sequence of single writes, each of which keeps every row
and adds to the store, by a rollback, or by the removal of an unconfirmed transaction.

* `Store.Write`, `Store.Writes`: the single writes and their sequences.
* `Store.Rounds`: the rounds of matching deposits, as a relation to do inductions on.
* `Store.writes_applyBatch`: a batch is a sequence of writes.
* `Store.Step`, `Store.Change`: what a call does, whole and taken apart, by `Store.change_of_step`.
-/

namespace WalletLedger

/-- The scripts at a type and index of an account. -/
def Account.derive (account : Account) (kind index : UInt32) :
    Except DerivationError DerivedScripts := do
  let key ← ExtendedKey.ofText account.extendedKey
  key.derive kind.toNat index.toNat

/-- An account derives the scripts of a key, at admitted numbers. -/
theorem Account.scripts_derive {account : Account} {kind index : UInt32} {scripts : DerivedScripts}
    (h : account.derive kind index = .ok scripts) :
    kind.toNat < ExtendedKey.numberLimit ∧ index.toNat < ExtendedKey.numberLimit ∧
      ∃ key : ExtendedKey, scripts = key.scripts := by
  obtain ⟨key, -, h⟩ := bind_eq_ok_iff.1 h
  obtain ⟨hkind, hindex, child, -, heq⟩ := ExtendedKey.scripts_derive h
  exact ⟨hkind, hindex, child, heq⟩

/-- The types of pools that an account has. -/
def IsPoolKind (kind : UInt32) : Prop := kind = receivingKind ∨ kind = changeKind

namespace Store

/-- A deposit of a staged output that pays an address in scope. -/
def IsDue (s : Store) (scope : Scope) (outputs : List StagedOutput) (d : Deposit) : Prop :=
  ∃ o ∈ outputs, ∃ a ∈ s.addresses, a.scripts.toKeyHash = o.script ∧
    s.inScope scope a.id.group.wallet = true ∧ d = Deposit.ofOutput a.id o

/-- One write that a store may see. Batches are among those that `staged` admits. -/
inductive Write (staged : Batch → Prop) : Store → Store → Prop
  | wallet {s s' : Store} {new : NewWallet} {tip : Option BlockRef} {chain : ChainView}
      {locator : BlockLocator} (build : BlockLocator.ofTip tip chain = .ok locator)
      (insert : s.insertWallet new tip locator.hashes = .ok s') : Write staged s s'
  | account {s s' : Store} {account : Account} (owner : ∃ w ∈ s.wallets, w.id = account.wallet)
      (insert : s.insertAccount account = .ok s') : Write staged s s'
  | address {s s' : Store} {account : Account} {a : Address} (owner : account ∈ s.accounts)
      (wallet : account.wallet = a.id.group.wallet) (index : account.index = a.id.group.account)
      (kind : IsPoolKind a.id.group.kind ∨ ∃ b ∈ s.addresses, b.id.group = a.id.group)
      (derive : account.derive a.id.group.kind a.id.index = .ok a.scripts)
      (insert : s.insertAddress a = .ok s') : Write staged s s'
  | deposit {s : Store} {scope : Scope} {batch : Batch} {d : Deposit} (admitted : staged batch)
      (due : s.IsDue scope batch.outputs d) : Write staged s (s.record d).2
  | spends {s : Store} {scope : Scope} {batch : Batch} (admitted : staged batch) :
      Write staged s (s.matchSpends scope batch).2
  | tip {s : Store} {wallet : Int} {tip : BlockRef} {chain : ChainView} {locator : BlockLocator}
      (build : BlockLocator.build tip chain = .ok locator) :
      Write staged s (s.setTip wallet tip locator.hashes)

/-- A sequence of writes. -/
abbrev Writes (staged : Batch → Prop) : Store → Store → Prop :=
  Relation.ReflTransGen (Write staged)

/-- What a call does to the open store, if it opens no other. -/
inductive Step (config : Config) (staged : Batch → Prop) : Store → Store → Prop
  | kept {s : Store} : Step config staged s s
  | wallet {s s' : Store} {new : NewWallet} {tip : Option BlockRef} {chain : ChainView}
      {locator : BlockLocator} (build : BlockLocator.ofTip tip chain = .ok locator)
      (insert : s.insertWallet new tip locator.hashes = .ok s') : Step config staged s s'
  | account {s opened s' : Store} {account : Account} {created : List Address}
      (owner : ∃ w ∈ s.wallets, w.id = account.wallet)
      (insert : s.insertAccount account = .ok opened)
      (extend : extendPools config.topUpBuffer
        [⟨account.wallet, account.index, receivingKind⟩, ⟨account.wallet, account.index, changeKind⟩]
        opened = .ok (created, s')) : Step config staged s s'
  | batch {s s' : Store} {batch : Batch} {header : Option BatchHeader} {chain : ChainView}
      {outcome : BatchOutcome} (admitted : staged batch)
      (apply : s.applyBatch config batch header chain = .ok (outcome, s')) : Step config staged s s'
  | undone {s : Store} {w : WalletRow} {tip : BlockRef} {chain : ChainView}
      {locator : BlockLocator} (held : w ∈ s.wallets) (above : isAbove tip.height w.height = true)
      (build : BlockLocator.build tip chain = .ok locator) :
      Step config staged s ((s.undoAbove w.id tip.height).setTip w.id tip locator.hashes)
  | dropped {s : Store} {w : WalletRow} {txid : Hash256} (held : w ∈ s.wallets) :
      Step config staged s (s.dropUnconfirmed w.id txid).2

/-- A step, with what it writes taken apart into single writes. -/
inductive Change (staged : Batch → Prop) : Store → Store → Prop
  | written {s s' : Store} (writes : Writes staged s s') : Change staged s s'
  | undone {s : Store} {w : WalletRow} {tip : BlockRef} {chain : ChainView}
      {locator : BlockLocator} (held : w ∈ s.wallets) (above : isAbove tip.height w.height = true)
      (build : BlockLocator.build tip chain = .ok locator) :
      Change staged s ((s.undoAbove w.id tip.height).setTip w.id tip locator.hashes)
  | dropped {s : Store} {w : WalletRow} {txid : Hash256} (held : w ∈ s.wallets) :
      Change staged s (s.dropUnconfirmed w.id txid).2

variable {s s' : Store} {staged : Batch → Prop} {scope : Scope} {batch : Batch}

/-- What a write does to the ledger: a deposit, the spends of a batch, or nothing. -/
theorem ledger_cases (h : Write staged s s') :
    (∃ scope batch d, staged batch ∧ s.IsDue scope batch.outputs d ∧ s' = (s.record d).2) ∨
    (∃ scope batch, staged batch ∧ s' = (s.matchSpends scope batch).2) ∨
    (s'.ledger = s.ledger ∧ s'.payments = s.payments ∧ ∀ a ∈ s.addresses, a ∈ s'.addresses) := by
  cases h with
  | wallet build insert =>
    rw [eq_of_insertWallet insert]
    exact .inr (.inr ⟨rfl, rfl, fun a ha => ha⟩)
  | account owner insert =>
    rw [eq_of_insertAccount insert]
    exact .inr (.inr ⟨rfl, rfl, fun a ha => ha⟩)
  | address owner wallet index kind derive insert =>
    rw [eq_of_insertAddress insert]
    exact .inr (.inr ⟨rfl, rfl, fun a ha => List.mem_append_left _ ha⟩)
  | deposit admitted due => exact .inl ⟨_, _, _, admitted, due, rfl⟩
  | spends admitted => exact .inr (.inl ⟨_, _, admitted, rfl⟩)
  | tip build => exact .inr (.inr ⟨rfl, rfl, fun a ha => ha⟩)

/-! ## What is due -/

theorem mem_deposits {outputs : List StagedOutput} {d : Deposit} :
    d ∈ s.deposits scope outputs ↔ s.IsDue scope outputs d ∧ s.isConfirmed d.key = false := by
  unfold deposits IsDue
  rw [Sorting.mem_sortBy]
  simp only [List.mem_filter, List.mem_flatMap, List.mem_map, Bool.and_eq_true, beq_iff_eq,
    Bool.not_eq_true']
  constructor
  · rintro ⟨⟨o, ho, a, ⟨ha, hscript, hscope⟩, rfl⟩, hconf⟩
    exact ⟨⟨o, ho, a, ha, hscript, hscope, rfl⟩, hconf⟩
  · rintro ⟨⟨o, ho, a, ha, hscript, hscope, rfl⟩, hconf⟩
    exact ⟨⟨o, ho, a, ⟨ha, hscript, hscope⟩, rfl⟩, hconf⟩

theorem inScope_congr (hw : s'.wallets = s.wallets) (wallet : Int) :
    s'.inScope scope wallet = s.inScope scope wallet := by simp only [inScope, hw]

/-- More addresses make more deposits due. -/
theorem IsDue.mono {outputs : List StagedOutput} {d : Deposit} (h : s.IsDue scope outputs d)
    (hw : s'.wallets = s.wallets) (ha : ∀ a ∈ s.addresses, a ∈ s'.addresses) :
    s'.IsDue scope outputs d := by
  obtain ⟨o, ho, a, hmem, hscript, hscope, hd⟩ := h
  exact ⟨o, ho, a, ha a hmem, hscript, by rw [inScope_congr hw]; exact hscope, hd⟩

theorem wallets_record (s : Store) (d : Deposit) : (s.record d).2.wallets = s.wallets := by
  unfold record
  split
  · rfl
  · split <;> rfl

theorem wallets_recordAll (ds : List Deposit) (s : Store) :
    (recordAll ds s).2.wallets = s.wallets := by
  induction ds generalizing s with
  | nil => rfl
  | cons d ds ih =>
    simp only [recordAll]
    rw [ih, wallets_record]

theorem accounts_recordAll (ds : List Deposit) (s : Store) :
    (recordAll ds s).2.accounts = s.accounts := by
  induction ds generalizing s with
  | nil => rfl
  | cons d ds ih =>
    simp only [recordAll]
    rw [ih]
    unfold record
    split
    · rfl
    · split <;> rfl

theorem mem_of_mem_unapplied {applied : List LedgerKey} {ds : List Deposit} {d : Deposit}
    (h : d ∈ unapplied applied ds) : d ∈ ds ∧ d.key ∉ applied := by
  induction ds generalizing applied with
  | nil => cases h
  | cons e ds ih =>
    unfold unapplied at h
    split at h
    · exact ⟨List.mem_cons_of_mem _ (ih h).1, (ih h).2⟩
    · rename_i he
      rcases List.mem_cons.1 h with rfl | h
      · exact ⟨List.mem_cons_self, he⟩
      · have hmem := ih h
        exact ⟨List.mem_cons_of_mem _ hmem.1,
          fun happ => hmem.2 (List.mem_cons_of_mem _ happ)⟩

/-! ## Batches as writes -/

theorem writes_recordAll {ds : List Deposit} (hb : staged batch)
    (hds : ∀ d ∈ ds, s.IsDue scope batch.outputs d) : Writes staged s (recordAll ds s).2 := by
  induction ds generalizing s with
  | nil => exact .refl
  | cons d ds ih =>
    have hfirst : Write staged s (s.record d).2 := .deposit hb (hds d List.mem_cons_self)
    refine .head hfirst (ih fun e he => ?_)
    refine (hds e (List.mem_cons_of_mem _ he)).mono (wallets_record s d) fun a ha => ?_
    rw [addresses_record]; exact ha

/-- Appended addresses are written one by one. -/
theorem writes_appendAddresses {account : Account} {key : ExtendedKey} {g : AddressGroup}
    {index count : Nat} {created : List Address}
    (hacc : account ∈ s.accounts) (hw : account.wallet = g.wallet) (hi : account.index = g.account)
    (hkey : ExtendedKey.ofText account.extendedKey = .ok key)
    (hkind : IsPoolKind g.kind ∨ ∃ b ∈ s.addresses, b.id.group = g)
    (h : appendAddresses key g index count s = .ok (created, s')) : Writes staged s s' := by
  induction count generalizing index s created with
  | zero => cases h; exact .refl
  | succ count ih =>
    obtain ⟨scripts, m, more, hderive, hlt, hinsert, hmore, -⟩ := appendAddresses_succ h
    -- what could be derived is numbered by 32 bits
    have hindex : (UInt32.ofNat index).toNat = index :=
      UInt32.toNat_ofNat_of_lt' (Nat.lt_trans hlt (by decide))
    have hscripts : account.derive g.kind (UInt32.ofNat index) = .ok scripts := by
      rw [Account.derive, hkey, hindex]; exact hderive
    refine .head (.address hacc hw hi hkind hscripts hinsert) (ih ?_ ?_ hmore)
    · rw [eq_of_insertAddress hinsert]; exact hacc
    · rw [eq_of_insertAddress hinsert]
      refine hkind.imp id ?_
      rintro ⟨b, hb, hg⟩
      exact ⟨b, List.mem_append_left _ hb, hg⟩

theorem writes_extendPool {g : AddressGroup} {buffer : UInt64} {created : List Address}
    (hkind : IsPoolKind g.kind ∨ ∃ b ∈ s.addresses, b.id.group = g)
    (h : s.extendPool g buffer = .ok (created, s')) : Writes staged s s' := by
  rcases extendPool_cases h with ⟨-, -, rfl⟩ | ⟨-, account, key, hacc, hkey, happend⟩
  · exact .refl
  · have hown := List.find?_some hacc
    rw [Bool.and_eq_true, beq_iff_eq, beq_iff_eq] at hown
    exact writes_appendAddresses (List.mem_of_find?_eq_some hacc) hown.1 hown.2
      (mapError_eq_ok_iff.1 hkey) hkind happend

theorem eq_of_extendPool {g : AddressGroup} {buffer : UInt64} {created : List Address}
    (h : s.extendPool g buffer = .ok (created, s')) :
    s' = { s with addresses := s.addresses ++ created } := by
  rcases extendPool_cases h with ⟨-, rfl, rfl⟩ | ⟨-, _, _, -, -, happend⟩
  · simp
  · exact (eq_of_appendAddresses happend).1

theorem eq_of_extendPools {gs : List AddressGroup} {buffer : UInt64} {created : List Address}
    (h : extendPools buffer gs s = .ok (created, s')) :
    s' = { s with addresses := s.addresses ++ created } := by
  induction gs generalizing s created with
  | nil => cases h; simp
  | cons g gs ih =>
    unfold extendPools at h
    obtain ⟨⟨first, s1⟩, hfirst, h⟩ := bind_eq_ok_iff.1 h
    obtain ⟨⟨more, s2⟩, hmore, h⟩ := bind_eq_ok_iff.1 h
    cases h
    rw [ih hmore, eq_of_extendPool hfirst, List.append_assoc]

theorem writes_extendPools {gs : List AddressGroup} {buffer : UInt64} {created : List Address}
    (hkind : ∀ g ∈ gs, IsPoolKind g.kind ∨ ∃ b ∈ s.addresses, b.id.group = g)
    (h : extendPools buffer gs s = .ok (created, s')) : Writes staged s s' := by
  induction gs generalizing s created with
  | nil => cases h; exact .refl
  | cons g gs ih =>
    unfold extendPools at h
    obtain ⟨⟨first, s1⟩, hfirst, h⟩ := bind_eq_ok_iff.1 h
    obtain ⟨⟨more, s2⟩, hmore, h⟩ := bind_eq_ok_iff.1 h
    cases h
    have hs1 : Writes staged s s1 := writes_extendPool (hkind g List.mem_cons_self) hfirst
    refine hs1.trans (ih ?_ hmore)
    intro g' hg'
    rw [eq_of_extendPool hfirst]
    refine (hkind g' (List.mem_cons_of_mem _ hg')).imp id ?_
    rintro ⟨b, hb, hg⟩
    exact ⟨b, List.mem_append_left _ hb, hg⟩

/-- A pool that is touched has the address of a due deposit. -/
theorem group_of_mem_touchedPools {pools : List AddressGroup} {ds : List Deposit} {g : AddressGroup}
    {outputs : List StagedOutput} (hds : ∀ d ∈ ds, s.IsDue scope outputs d)
    (hg : g ∈ s.touchedPools pools ds) : ∃ b ∈ s.addresses, b.id.group = g := by
  have htouched := (List.mem_filter.1 hg).2
  obtain ⟨d, hd, hgroup⟩ := List.any_eq_true.1 htouched
  rw [Bool.and_eq_true, beq_iff_eq] at hgroup
  obtain ⟨o, -, a, ha, -, -, rfl⟩ := hds d hd
  exact ⟨a, ha, hgroup.1⟩

/-- The deposits that a round of matching records. -/
def newDeposits (s : Store) (scope : Scope) (outputs : List StagedOutput)
    (applied : List LedgerKey) : List Deposit := unapplied applied (s.deposits scope outputs)

/-- The rounds of matching that succeed, with what they find and where they end. -/
inductive Rounds (scope : Scope) (buffer : UInt64) (outputs : List StagedOutput)
    (pools : List AddressGroup) : List LedgerKey → Store → DepositOutcome → Store → Prop
  | stop {applied : List LedgerKey} {s : Store} (none : s.newDeposits scope outputs applied = []) :
      Rounds scope buffer outputs pools applied s ⟨0, 1, []⟩ s
  | last {applied : List LedgerKey} {s t : Store} {new : List Deposit}
      (hnew : new = s.newDeposits scope outputs applied)
      (extend : extendPools buffer (s.touchedPools pools new) (recordAll new s).2 = .ok ([], t)) :
      Rounds scope buffer outputs pools applied s ⟨(recordAll new s).1, 1, []⟩ t
  | round {applied : List LedgerKey} {s m t : Store} {new : List Deposit} {created : List Address}
      {rest : DepositOutcome} (hnew : new = s.newDeposits scope outputs applied)
      (extend : extendPools buffer (s.touchedPools pools new) (recordAll new s).2 = .ok (created, m))
      (grown : created ≠ [])
      (next : Rounds scope buffer outputs pools (applied ++ new.map (·.key)) m rest t) :
      Rounds scope buffer outputs pools applied s
        ⟨(recordAll new s).1 + rest.deposits, rest.iterations + 1, created ++ rest.created⟩ t

/-- Matching that succeeds goes through its rounds. -/
theorem rounds_of_matchDeposits {buffer : UInt64} {outputs : List StagedOutput}
    {pools : List AddressGroup} {applied : List LedgerKey} {found : DepositOutcome}
    (h : s.matchDeposits scope buffer outputs pools applied = .ok (found, s')) :
    Rounds scope buffer outputs pools applied s found s' := by
  -- the recursion of matching, less the branches that fail
  fun_induction matchDeposits scope buffer outputs pools applied s generalizing found with
  | case1 applied s new =>
    rename_i hnew
    cases h
    exact .stop hnew
  | case2 => cases h
  | case3 applied s new hnew recorded extended =>
    rename_i hround
    cases h
    exact .last rfl hround
  | case4 => cases h
  | case5 applied s new hnew recorded a created extended hround rest last hrest =>
    rename_i ih
    cases h
    exact .round rfl hround (List.cons_ne_nil _ _) (ih hrest)

/-- Rounds without new deposits touch no pool. -/
theorem touchedPools_nil (s : Store) (pools : List AddressGroup) : s.touchedPools pools [] = [] :=
  List.filter_eq_nil_iff.2 fun _ _ => Bool.false_ne_true

/-- Rounds that succeed are those of matching. -/
theorem matchDeposits_of_rounds {buffer : UInt64} {outputs : List StagedOutput}
    {pools : List AddressGroup} {applied : List LedgerKey} {found : DepositOutcome}
    (h : Rounds scope buffer outputs pools applied s found s') :
    s.matchDeposits scope buffer outputs pools applied = .ok (found, s') := by
  induction h with
  | @stop applied s hnone =>
    rw [newDeposits] at hnone
    rw [matchDeposits]
    dsimp only
    rw [if_pos hnone]
  | @last applied s t new hnew hextend =>
    rw [newDeposits] at hnew
    subst hnew
    rw [matchDeposits]
    dsimp only
    split
    · rename_i hnil
      rw [hnil, touchedPools_nil] at hextend
      cases hextend
      rw [hnil]
      rfl
    · split
      · rename_i heq
        rw [hextend] at heq
        cases heq
      · rename_i heq
        rw [hextend] at heq
        cases heq
        rfl
      · rename_i heq
        rw [hextend] at heq
        cases heq
  | @round applied s m t new created rest hnew hextend hgrown _ ih =>
    rw [newDeposits] at hnew
    subst hnew
    rw [matchDeposits]
    dsimp only
    split
    · rename_i hnil
      rw [hnil, touchedPools_nil] at hextend
      cases hextend
      exact absurd rfl hgrown
    · split
      · rename_i heq
        rw [hextend] at heq
        cases heq
      · rename_i heq
        rw [hextend] at heq
        cases heq
        exact absurd rfl hgrown
      · rename_i heq
        rw [hextend] at heq
        cases heq
        rw [ih]

/-- The deposits of a round are due, not confirmed and not applied yet. -/
theorem isDue_of_mem_newDeposits {outputs : List StagedOutput} {applied : List LedgerKey}
    {d : Deposit} (h : d ∈ s.newDeposits scope outputs applied) :
    s.IsDue scope outputs d ∧ s.isConfirmed d.key = false ∧ d.key ∉ applied := by
  have hmem := mem_of_mem_unapplied h
  have hdue := mem_deposits.1 hmem.1
  exact ⟨hdue.1, hdue.2, hmem.2⟩

/-- What a round leaves alone, and the addresses that it adds. -/
theorem frame_round {buffer : UInt64} {pools : List AddressGroup} {new : List Deposit}
    {created : List Address}
    (h : extendPools buffer (s.touchedPools pools new) (recordAll new s).2 = .ok (created, s')) :
    s'.wallets = s.wallets ∧ s'.addresses = s.addresses ++ created ∧
      s'.ledger = (recordAll new s).2.ledger ∧ s'.payments = (recordAll new s).2.payments ∧
      s'.accounts = s.accounts := by
  rw [eq_of_extendPools h]
  exact ⟨wallets_recordAll new s, by rw [addresses_recordAll], rfl, rfl, accounts_recordAll new s⟩

theorem writes_round {buffer : UInt64} {pools : List AddressGroup} {applied : List LedgerKey}
    {new : List Deposit} {created : List Address} (hb : staged batch)
    (hnew : new = s.newDeposits scope batch.outputs applied)
    (h : extendPools buffer (s.touchedPools pools new) (recordAll new s).2 = .ok (created, s')) :
    Writes staged s s' := by
  have hdue : ∀ d ∈ new, s.IsDue scope batch.outputs d := by
    intro d hd
    rw [hnew] at hd
    exact (isDue_of_mem_newDeposits hd).1
  refine (writes_recordAll hb hdue).trans (writes_extendPools ?_ h)
  intro g hg
  rw [addresses_recordAll]
  exact .inr (group_of_mem_touchedPools hdue hg)

theorem writes_rounds {buffer : UInt64} {pools : List AddressGroup} {applied : List LedgerKey}
    {found : DepositOutcome} (hb : staged batch)
    (h : Rounds scope buffer batch.outputs pools applied s found s') : Writes staged s s' := by
  induction h with
  | stop => exact .refl
  | last hnew hextend => exact writes_round hb hnew hextend
  | round hnew hextend _ _ ih => exact (writes_round hb hnew hextend).trans ih

theorem frame_rounds {buffer : UInt64} {outputs : List StagedOutput} {pools : List AddressGroup}
    {applied : List LedgerKey} {found : DepositOutcome}
    (h : Rounds scope buffer outputs pools applied s found s') :
    s'.wallets = s.wallets ∧ s'.addresses = s.addresses ++ found.created ∧
      s'.accounts = s.accounts := by
  induction h with
  | stop => exact ⟨rfl, by simp, rfl⟩
  | last hnew hextend =>
    obtain ⟨hw, ha, -, -, hacc⟩ := frame_round hextend
    exact ⟨hw, ha, hacc⟩
  | round hnew hextend _ _ ih =>
    obtain ⟨hw, ha, -, -, hacc⟩ := frame_round hextend
    refine ⟨ih.1.trans hw, ?_, ih.2.2.trans hacc⟩
    rw [ih.2.1, ha, List.append_assoc]

theorem frame_foldl_setTip (tip : BlockRef) (hashes : List Hash256) (ws : List WalletRow)
    (s : Store) : ws.foldl (fun s w => s.setTip w.id tip hashes) s =
      { s with wallets := (ws.foldl (fun s w => s.setTip w.id tip hashes) s).wallets } := by
  induction ws generalizing s with
  | nil => rfl
  | cons w ws ih =>
    rw [List.foldl_cons, ih]
    rfl

theorem frame_advance {header : Option BatchHeader} {chain : ChainView} {names : List String}
    (h : s.advance scope header chain = .ok (names, s')) :
    s' = { s with wallets := s'.wallets } := by
  cases header with
  | none => cases h; rfl
  | some header =>
    unfold advance at h
    dsimp only at h
    split at h
    · cases h; rfl
    · obtain ⟨locator, -, h⟩ := bind_eq_ok_iff.1 h
      cases h
      exact frame_foldl_setTip _ _ _ s

/-- What the spends and the tips of a batch leave alone. -/
theorem frame_moved {t : Store} {header : Option BatchHeader} {chain : ChainView}
    {names : List String}
    (h : (t.matchSpends scope batch).2.advance scope header chain = .ok (names, s')) :
    s'.accounts = t.accounts ∧ s'.addresses = t.addresses ∧
      s'.ledger.map (fun r => (r.key, r.deposit)) = t.ledger.map fun r => (r.key, r.deposit) := by
  rw [frame_advance h]
  exact ⟨rfl, rfl, t.key_matchSpends scope batch⟩

/-- A batch is applied in three parts, which make up its outcome. -/
theorem applyBatch_eq_ok_iff {config : Config} {header : Option BatchHeader} {chain : ChainView}
    {outcome : BatchOutcome} : s.applyBatch config batch header chain = .ok (outcome, s') ↔
    ∃ found deposited names,
      Rounds (Scope.ofBatch config header) config.topUpBuffer batch.outputs s.pools [] s found
        deposited ∧
      (deposited.matchSpends (Scope.ofBatch config header) batch).2.advance
        (Scope.ofBatch config header) header chain = .ok (names, s') ∧
      outcome = ⟨found.deposits, (deposited.matchSpends (Scope.ofBatch config header) batch).1,
        found.iterations, found.created.map (·.scripts.toKeyHash), names⟩ := by
  constructor
  · intro h
    obtain ⟨⟨found, deposited⟩, hfound, h⟩ := bind_eq_ok_iff.1 h
    obtain ⟨⟨names, moved⟩, hmoved, h⟩ := bind_eq_ok_iff.1 h
    cases h
    exact ⟨found, deposited, names, rounds_of_matchDeposits hfound, hmoved, rfl⟩
  · rintro ⟨found, deposited, names, hrounds, hmoved, rfl⟩
    exact bind_eq_ok_iff.2 ⟨_, matchDeposits_of_rounds hrounds, bind_eq_ok_iff.2 ⟨_, hmoved, rfl⟩⟩

/-- The three parts of applying a batch. -/
theorem parts_of_applyBatch {config : Config} {header : Option BatchHeader} {chain : ChainView}
    {outcome : BatchOutcome} (h : s.applyBatch config batch header chain = .ok (outcome, s')) :
    ∃ found deposited names,
      Rounds (Scope.ofBatch config header) config.topUpBuffer batch.outputs s.pools [] s found
        deposited ∧
      (deposited.matchSpends (Scope.ofBatch config header) batch).2.advance
        (Scope.ofBatch config header) header chain = .ok (names, s') := by
  obtain ⟨found, deposited, names, hrounds, hmoved, -⟩ := applyBatch_eq_ok_iff.1 h
  exact ⟨found, deposited, names, hrounds, hmoved⟩

theorem writes_foldl_setTip {tip : BlockRef} {chain : ChainView} {locator : BlockLocator}
    (hbuild : BlockLocator.build tip chain = .ok locator) (ws : List WalletRow) (s : Store) :
    Writes staged s (ws.foldl (fun s w => s.setTip w.id tip locator.hashes) s) := by
  induction ws generalizing s with
  | nil => exact .refl
  | cons w ws ih => exact .head (.tip hbuild) (ih _)

theorem writes_advance {header : Option BatchHeader} {chain : ChainView} {names : List String}
    (h : s.advance scope header chain = .ok (names, s')) : Writes staged s s' := by
  cases header with
  | none => cases h; exact .refl
  | some header =>
    unfold advance at h
    dsimp only at h
    split at h
    · cases h; exact .refl
    · obtain ⟨locator, hbuild, h⟩ := bind_eq_ok_iff.1 h
      cases h
      exact writes_foldl_setTip hbuild _ s

theorem writes_applyBatch {config : Config} {header : Option BatchHeader} {chain : ChainView}
    {outcome : BatchOutcome} (hb : staged batch)
    (h : s.applyBatch config batch header chain = .ok (outcome, s')) : Writes staged s s' := by
  obtain ⟨found, deposited, names, hrounds, hmoved⟩ := parts_of_applyBatch h
  have hdep : Writes staged s deposited := writes_rounds hb hrounds
  exact (hdep.tail (.spends hb)).trans (writes_advance hmoved)

theorem row_of_wallet {name : String} {w : Wallet} (h : s.wallet name = .ok w) :
    ∃ row ∈ s.wallets, s.walletRow? name = some row ∧ row.name = name ∧ row.id = w.id ∧
      row.decode = .ok w := by
  unfold wallet at h
  split at h
  · cases h
  · rename_i row hrow
    have hname : row.name = name := by simpa using List.find?_some hrow
    refine ⟨row, List.mem_of_find?_eq_some hrow, hrow, hname, ?_, h⟩
    obtain ⟨tip, -, h⟩ := bind_eq_ok_iff.1 h
    obtain ⟨locator, -, h⟩ := bind_eq_ok_iff.1 h
    cases h
    rfl

theorem height_of_tip {row : WalletRow} {tip : Option BlockRef} (h : row.tip = .ok tip) :
    row.height = tip.map (·.height) := by
  unfold WalletRow.tip at h
  split at h
  · rename_i hheight
    cases h
    exact hheight
  · rename_i height hheight
    obtain ⟨hash, -, rfl⟩ := map_eq_ok_iff.1 h
    exact hheight

theorem height_of_decode {row : WalletRow} {w : Wallet} (h : row.decode = .ok w) :
    row.height = w.tip.map (·.height) := by
  obtain ⟨tip, htip, h⟩ := bind_eq_ok_iff.1 h
  obtain ⟨locator, -, h⟩ := bind_eq_ok_iff.1 h
  cases h
  exact height_of_tip htip

theorem step_rollback {config : Config} {name : String} {w : Wallet} {target : UInt32}
    {chain : ChainView} {moved : Bool} (hw : s.wallet name = .ok w)
    (h : s.rollback w target chain = .ok (moved, s')) : Step config staged s s' := by
  obtain ⟨row, hmem, -, -, hid, hdecode⟩ := row_of_wallet hw
  unfold rollback at h
  split at h
  · rename_i habove
    split at h
    · cases h
    · rename_i hash _
      obtain ⟨locator, hbuild, h⟩ := bind_eq_ok_iff.1 h
      cases h
      -- the wallet is read from its row, so both say the same height
      have hheight : isAbove target row.height = true := by
        rw [height_of_decode hdecode, isAbove]
        cases htip : w.tip with
        | none => simp [htip] at habove
        | some tip => simpa [htip] using habove
      rw [← hid]
      exact .undone hmem hheight hbuild
  · cases h
    exact .kept

/-- A new account and its addresses are written one by one. -/
theorem writes_of_account {opened : Store} {account : Account} {buffer : UInt64}
    {created : List Address} (owner : ∃ w ∈ s.wallets, w.id = account.wallet)
    (insert : s.insertAccount account = .ok opened)
    (extend : extendPools buffer
      [⟨account.wallet, account.index, receivingKind⟩, ⟨account.wallet, account.index, changeKind⟩]
      opened = .ok (created, s')) : Writes staged s s' := by
  refine .head (.account owner insert) (writes_extendPools ?_ extend)
  intro g hg
  rcases List.mem_cons.1 hg with rfl | hg
  · exact .inl (.inl rfl)
  · rw [List.mem_singleton] at hg
    subst hg
    exact .inl (.inr rfl)

theorem change_of_step {config : Config} (h : Step config staged s s') : Change staged s s' := by
  cases h with
  | kept => exact .written .refl
  | wallet build insert => exact .written (.single (.wallet build insert))
  | account owner insert extend => exact .written (writes_of_account owner insert extend)
  | batch admitted apply => exact .written (writes_applyBatch admitted apply)
  | undone held above build => exact .undone held above build
  | dropped held => exact .dropped held

end Store

end WalletLedger
