import WalletLedger.Proofs.Advance
import WalletLedger.Proofs.Deposits

/-!
# The watched scripts are those of the addresses

An indexer keeps the scripts of its addresses in memory, for scanners to ask about. They are read from
the store when it is opened and extended by what later calls derive. An answered call watches the scripts
of exactly the addresses that it adds, and a refused one adds none, so that the two never part.

* `Indexer.Adds`: a call adds addresses, and watches what it adds.
* `Indexer.adds_of_perform`: every call that opens no store does so, the step lemma.
* `Indexer.Watching.after`, `Indexer.Watching.afterAll`: what is watched after a call, and after a run.
* `Indexer.watched_scripts_exact`: what is watched in every state, and what a batch reports of it.
-/

namespace WalletLedger

/-- The scripts that addresses are paid under. -/
def payScripts (addresses : List Address) : List Script := addresses.map (·.scripts.toKeyHash)

namespace Indexer

open Store

/-- An indexer watches the scripts of the addresses of its open store, and no others. -/
def Watching (ix : Indexer) : Prop :=
  ∀ script, script ∈ ix.watched.scripts ↔ script ∈ payScripts ix.store.addresses

/-- A call adds addresses to the open store and watches their scripts. -/
structure Adds (ix ix' : Indexer) (created : List Address) : Prop where
  addresses : ix'.store.addresses = ix.store.addresses ++ created
  watched : ix'.watched = ix.watched.extend (payScripts created)

variable {ix ix' : Indexer} {created : List Address}

theorem Adds.none (haddresses : ix'.store.addresses = ix.store.addresses)
    (hwatched : ix'.watched = ix.watched) : ix.Adds ix' [] where
  addresses := by rw [haddresses, List.append_nil]
  watched := hwatched

theorem Watching.adds (h : ix.Watching) (hadds : ix.Adds ix' created) : ix'.Watching := by
  intro script
  rw [hadds.watched, WatchList.mem_extend, h script, hadds.addresses]
  unfold payScripts
  rw [List.map_append, List.mem_append]

/-- Opening a store watches the scripts that it holds. -/
theorem watching_reopen (ix : Indexer) (network : Network) (config : Config) :
    (ix.reopen network config).Watching := by
  intro script
  dsimp only [reopen]
  rw [WatchList.ofList, WatchList.mem_extend, payScripts]
  simp [WatchList.empty]

/-! ## Calls -/

/-- A batch reports the scripts of the addresses that it adds, one for each address. -/
theorem adds_of_processBatch {batch : Batch} {header : Option BatchHeader} {chain : ChainView}
    {outcome : BatchOutcome} (h : ix.processBatch batch header chain = .ok (outcome, ix')) :
    ∃ created, ix.Adds ix' created ∧ outcome.newScripts = payScripts created := by
  obtain ⟨⟨outcome, store⟩, happly, h⟩ := bind_eq_ok_iff.1 h
  cases h
  obtain ⟨found, deposited, names, hrounds, hmoved, rfl⟩ := applyBatch_eq_ok_iff.1 happly
  obtain ⟨-, haddresses, -⟩ := frame_rounds hrounds
  obtain ⟨-, hkept, -⟩ := frame_moved hmoved
  exact ⟨found.created, ⟨hkept.trans haddresses, rfl⟩, rfl⟩

theorem adds_of_processBlocks {blocks : List PlacedBlock} {chain : ChainView} {outcome : BatchOutcome}
    (h : ix.processBlocks blocks chain = .ok (outcome, ix')) :
    ∃ created, ix.Adds ix' created ∧ outcome.newScripts = payScripts created := by
  unfold processBlocks at h
  split at h
  · cases h
  · -- no blocks add nothing
    cases h
    exact ⟨[], .none rfl rfl, rfl⟩
  · exact adds_of_processBatch h

theorem adds_of_answer {result : Result (BatchOutcome × Indexer)}
    (hadds : ∀ outcome ix', result = .ok (outcome, ix') →
      ∃ created, ix.Adds ix' created ∧ outcome.newScripts = payScripts created)
    (h : result.map (·.2) = .ok ix') : ∃ created, ix.Adds ix' created ∧
      ∀ outcome ∈ result.toOption.map (·.1), outcome.newScripts = payScripts created := by
  obtain ⟨⟨outcome, ix1⟩, rfl, rfl⟩ := map_eq_ok_iff.1 h
  obtain ⟨created, hcreated, hscripts⟩ := hadds outcome ix1 rfl
  refine ⟨created, hcreated, fun outcome' houtcome => ?_⟩
  cases houtcome
  exact hscripts

theorem adds_of_createAccount {wallet name extendedKey : String} {index created : UInt32}
    {account : Account} (h : ix.createAccount wallet index name extendedKey created =
      .ok (account, ix')) : ∃ created, ix.Adds ix' created := by
  obtain ⟨key, -, h⟩ := bind_eq_ok_iff.1 h
  obtain ⟨_, -, h⟩ := bind_eq_ok_iff.1 h
  obtain ⟨owner, -, h⟩ := bind_eq_ok_iff.1 h
  obtain ⟨opened, hinsert, h⟩ := bind_eq_ok_iff.1 h
  obtain ⟨⟨addresses, store⟩, hextend, h⟩ := bind_eq_ok_iff.1 h
  cases h
  refine ⟨addresses, ?_, rfl⟩
  rw [eq_of_extendPools hextend, eq_of_insertAccount hinsert]

theorem addresses_rollback {s s' : Store} {w : Wallet} {target : UInt32} {chain : ChainView}
    {moved : Bool} (h : s.rollback w target chain = .ok (moved, s')) : s'.addresses = s.addresses := by
  unfold Store.rollback at h
  split at h
  · split at h
    · cases h
    · obtain ⟨locator, -, h⟩ := bind_eq_ok_iff.1 h
      cases h
      rfl
  · cases h
    rfl

/-- **What a call adds**: an answered call that opens no store watches what it adds, and a batch reports
just that. -/
theorem adds_of_perform {call : Call} (hopen : ∀ network config, call ≠ .reopen network config)
    (h : ix.perform call = .ok ix') : ∃ created, ix.Adds ix' created ∧
      ∀ outcome ∈ ix.outcome? call, outcome.newScripts = payScripts created := by
  cases call with
  | reopen network config => exact absurd rfl (hopen network config)
  | createWallet new tip chain =>
    obtain ⟨⟨w, ix1⟩, hcall, rfl⟩ := map_eq_ok_iff.1 h
    obtain ⟨heq, locator, -, hinsert⟩ := insert_of_createWallet hcall
    refine ⟨[], .none ?_ ?_, nofun⟩
    · rw [eq_of_insertWallet hinsert]
    · rw [heq]
  | createAccount wallet index name extendedKey created =>
    obtain ⟨⟨account, ix1⟩, hcall, rfl⟩ := map_eq_ok_iff.1 h
    obtain ⟨addresses, hadds⟩ := adds_of_createAccount hcall
    exact ⟨addresses, hadds, nofun⟩
  | processBatch batch header chain => exact adds_of_answer (fun _ _ => adds_of_processBatch) h
  | processBlock placed chain => exact adds_of_answer (fun _ _ => adds_of_processBatch) h
  | processBlocks blocks chain => exact adds_of_answer (fun _ _ => adds_of_processBlocks) h
  | processTransaction tx time => exact adds_of_answer (fun _ _ => adds_of_processBatch) h
  | rollback wallet target chain =>
    obtain ⟨⟨moved, ix1⟩, hcall, rfl⟩ := map_eq_ok_iff.1 h
    obtain ⟨w, hw, hcall⟩ := bind_eq_ok_iff.1 hcall
    obtain ⟨⟨moved, store⟩, hrollback, hcall⟩ := bind_eq_ok_iff.1 hcall
    cases hcall
    exact ⟨[], .none (addresses_rollback hrollback) rfl, nofun⟩
  | removeUnconfirmed wallet txid =>
    obtain ⟨w, -, rfl⟩ := drop_of_removeUnconfirmed h
    exact ⟨[], .none rfl rfl, nofun⟩

/-- An outcome is that of an answered call. -/
theorem perform_of_outcome? {call : Call} {outcome : BatchOutcome}
    (h : ix.outcome? call = some outcome) : ix.perform call = .ok (ix.after call) := by
  have hanswered : ∀ {result : Result (BatchOutcome × Indexer)},
      result.toOption.map (·.1) = some outcome → ∃ ix', result.map (·.2) = .ok ix' := by
    intro result hresult
    cases result with
    | error e => cases hresult
    | ok answer => exact ⟨answer.2, rfl⟩
  have hperform : ∃ ix', ix.perform call = .ok ix' := by
    cases call with
    | processBatch | processBlock | processBlocks | processTransaction => exact hanswered h
    | _ => cases h
  obtain ⟨ix', hperform⟩ := hperform
  rw [hperform, after_of_perform hperform]

/-! ## Runs -/

/-- **A call keeps what is watched in step with the store**, whether it is answered or refused. -/
theorem Watching.after (h : ix.Watching) (call : Call) : (ix.after call).Watching := by
  rcases ix.after_answered_or_reopened call with ⟨hopen, hok⟩ | ⟨network, config, hreopened⟩ | hsame
  · obtain ⟨created, hadds, -⟩ := adds_of_perform hopen hok
    exact h.adds hadds
  · rw [hreopened]
    exact ix.watching_reopen network config
  · rw [hsame]
    exact h

/-- **A run does so too.** -/
theorem Watching.afterAll {calls : List Call} (h : ix.Watching) : (ix.afterAll calls).Watching := by
  induction calls generalizing ix with
  | nil => exact h
  | cons call calls ih => exact ih (h.after call)

theorem watching_fresh (network : Network) (config : Config) : (fresh network config).Watching := by
  intro script
  simp [fresh, WatchList.empty, Store.empty, payScripts]

/-- **The watched scripts are those of the addresses, at any time.** After any calls on one indexer,
answered or refused, and any openings of any networks, the scripts of interest are those of the addresses
in the open store. A batch that is answered adds some addresses and reports their scripts, one for each
of them in their order. A call that is refused changes neither the stores nor what is watched. -/
theorem watched_scripts_exact (network : Network) (config : Config) (calls : List Call) :
    (∀ script, script ∈ (run network config calls).watched.scripts ↔
      ∃ a ∈ (run network config calls).store.addresses, a.scripts.toKeyHash = script) ∧
    (∀ call outcome, (run network config calls).outcome? call = some outcome →
      ∃ created, ((run network config calls).after call).store.addresses =
          (run network config calls).store.addresses ++ created ∧
        outcome.newScripts = created.map (·.scripts.toKeyHash)) ∧
    ∀ call e, (run network config calls).perform call = .error e →
      (run network config calls).after call = run network config calls := by
  refine ⟨fun script => ?_, fun call outcome houtcome => ?_, fun call e herror => ?_⟩
  · have hwatching : (run network config calls).Watching := (watching_fresh network config).afterAll
    rw [hwatching script, payScripts, List.mem_map]
  · have hopen : ∀ network config, call ≠ .reopen network config := by
      rintro network config rfl
      cases houtcome
    obtain ⟨created, hadds, hscripts⟩ := adds_of_perform hopen (perform_of_outcome? houtcome)
    exact ⟨created, hadds.addresses, hscripts outcome (Option.mem_def.2 houtcome)⟩
  · rw [after, herror]

/-- A batch that adds two addresses on its way reports both of them, and a wallet whose name is taken is
refused. -/
theorem watched_scripts_exact_cascade : ∃ network config calls,
    run network config calls = Sample.opened Sample.config ∧
    (∃ outcome, (Sample.opened Sample.config).outcome?
        (.processBatch Sample.cascade none fun _ => none) = some outcome ∧
      outcome.newScripts = [Sample.receiving₁.toKeyHash, Sample.receiving₂.toKeyHash]) ∧
    ∃ call e, (Sample.opened Sample.config).perform call = .error e ∧
      (Sample.opened Sample.config).after call = Sample.opened Sample.config := by
  obtain ⟨past, hist, -⟩ := Sample.history Sample.config
  obtain ⟨network, config, calls, hrun⟩ := Reachable.exists_run ⟨_, past, hist⟩
  obtain ⟨-, hreports, hrefuses⟩ := watched_scripts_exact network config calls
  rw [hrun] at hreports hrefuses
  refine ⟨network, config, calls, hrun, ?_, ?_⟩
  · obtain ⟨ix', hperform, hstore⟩ := map_eq_ok_iff.1 Sample.perform_cascade
    obtain ⟨⟨outcome, ix1⟩, hanswer, rfl⟩ := map_eq_ok_iff.1 hperform
    have houtcome : (Sample.opened Sample.config).outcome?
        (.processBatch Sample.cascade none fun _ => none) = some outcome := by
      rw [outcome?, hanswer]
      rfl
    obtain ⟨created, haddresses, hscripts⟩ := hreports _ outcome houtcome
    refine ⟨outcome, houtcome, ?_⟩
    rw [after_of_perform hperform, hstore] at haddresses
    have hcreated := List.append_cancel_left haddresses
    rw [hscripts, ← hcreated]
    rfl
  · let call : Call := .createWallet ⟨"savings", "", "", true, 0⟩ none fun _ => none
    have hrefused : ((Sample.opened Sample.config).perform call).map (·.store) =
        .error (.store .walletName) := by
      decide +kernel
    cases hperform : (Sample.opened Sample.config).perform call with
    | error e => exact ⟨call, e, hperform, hrefuses call e hperform⟩
    | ok ix' =>
      rw [hperform] at hrefused
      cases hrefused

end Indexer

end WalletLedger
