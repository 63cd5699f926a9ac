import WalletLedger.Proofs.Reorg
import WalletLedger.Proofs.Share

/-!
# Applying a header

A batch with a header is applied to the wallets that stand at its parent. These are the wallets that it
moves to its tip, so that none of them stands at the parent afterwards, until a rollback takes it back.

* `Indexer.afterAll`: runs of calls, refused ones included.
* `Indexer.synced_of_perform`: how a call moves a wallet, the step lemma.
* `Depth`, `exists_return`: how often a block can be reached along headers.
* `Indexer.header_applied_once`: what a header does, and how often.
-/

namespace WalletLedger

/-- The hash that a wallet is synced to. -/
def Store.synced? (s : Store) (name : String) : Option Bytes := (s.walletRow? name).map (·.hash)

/-! ## Runs -/

namespace Indexer

/-- The state after a call. A refused call changes nothing. -/
def after (ix : Indexer) (call : Call) : Indexer :=
  match ix.perform call with
  | .ok ix' => ix'
  | .error _ => ix

/-- The state after some calls, one after another. -/
def afterAll (ix : Indexer) (calls : List Call) : Indexer := calls.foldl after ix

/-- The state of an indexer that was opened on empty stores, after some calls. -/
def run (network : Network) (config : Config) (calls : List Call) : Indexer :=
  (fresh network config).afterAll calls

/-- What a call that stages a batch answers, unless it is refused. -/
def outcome? (ix : Indexer) : Call → Option BatchOutcome
  | .processBatch batch header chain => (ix.processBatch batch header chain).toOption.map (·.1)
  | .processBlock placed chain => (ix.processBlock placed chain).toOption.map (·.1)
  | .processBlocks blocks chain => (ix.processBlocks blocks chain).toOption.map (·.1)
  | .processTransaction tx time => (ix.processTransaction tx time).toOption.map (·.1)
  | _ => none

/-- A call of a run applies a header to a wallet of the network that the run starts on: it reports that
the wallet has moved. -/
def AppliesAt (ix : Indexer) (calls : List Call) (header : BatchHeader) (name : String) (i : Nat) :
    Prop :=
  let now := ix.afterAll (calls.take i)
  now.network = ix.network ∧ ∃ call, calls[i]? = some call ∧ call.header? = some header ∧
    ∃ outcome, now.outcome? call = some outcome ∧ name ∈ outcome.advanced

/-- A call of a run moves a wallet of that network back. -/
def RollsBackAt (ix : Indexer) (calls : List Call) (name : String) (i : Nat) : Prop :=
  let now := ix.afterAll (calls.take i)
  now.network = ix.network ∧ ∃ target chain, calls[i]? = some (.rollback name target chain) ∧
    ∃ next, now.rollback name target chain = .ok (true, next)

/-- The hash that a wallet of that network is synced to before a call of a run. -/
def syncedAt? (ix : Indexer) (calls : List Call) (name : String) (i : Nat) : Option Bytes :=
  ((ix.afterAll (calls.take i)).storeOf ix.network).synced? name

variable {ix ix' : Indexer}

theorem after_of_perform {call : Call} (h : ix.perform call = .ok ix') : ix.after call = ix' := by
  rw [after, h]

theorem after_cases (ix : Indexer) (call : Call) :
    ix.perform call = .ok (ix.after call) ∨ ix.after call = ix := by
  unfold after
  cases ix.perform call with
  | ok ix' => exact .inl rfl
  | error e => exact .inr rfl

/-- A call is answered and opens no store, or opens one, or is refused. -/
theorem after_answered_or_reopened (ix : Indexer) (call : Call) :
    ((∀ network config, call ≠ .reopen network config) ∧ ix.perform call = .ok (ix.after call)) ∨
      (∃ network config, ix.after call = ix.reopen network config) ∨ ix.after call = ix := by
  rcases ix.after_cases call with hok | hsame
  · cases call with
    | reopen network config => exact .inr (.inl ⟨network, config, rfl⟩)
    | _ => exact .inl ⟨nofun, hok⟩
  · exact .inr (.inr hsame)

theorem afterAll_take_succ {calls : List Call} {i : Nat} {call : Call} (h : calls[i]? = some call) :
    ix.afterAll (calls.take (i + 1)) = (ix.afterAll (calls.take i)).after call := by
  rw [List.take_add_one, h, afterAll, List.foldl_append]
  rfl

theorem afterAll_concat (ix : Indexer) (calls : List Call) (call : Call) :
    ix.afterAll (calls ++ [call]) = (ix.afterAll calls).after call := by
  rw [afterAll, List.foldl_append]
  rfl

theorem Reachable.afterAll {calls : List Call} (h : ix.Reachable) : (ix.afterAll calls).Reachable := by
  induction calls generalizing ix with
  | nil => exact h
  | cons call calls ih =>
    refine ih ?_
    rcases ix.after_cases call with hok | hsame
    · exact h.perform hok
    · rw [hsame]
      exact h

theorem reachable_run (network : Network) (config : Config) (calls : List Call) :
    (run network config calls).Reachable := by
  have hfresh : (fresh network config).Reachable := ⟨_, _, .opened network config⟩
  exact hfresh.afterAll

/-- The states that histories end in are those that runs lead to. -/
theorem Reachable.exists_run (h : ix.Reachable) :
    ∃ network config calls, run network config calls = ix := by
  obtain ⟨answered, past, hist⟩ := h
  generalize hstates : ix :: past = states at hist
  induction hist generalizing ix past with
  | opened network config =>
    cases hstates
    exact ⟨network, config, [], rfl⟩
  | @called answered before ix₀ ix' call _ answer ih =>
    cases hstates
    obtain ⟨network, config, calls, hrun⟩ := ih _ rfl
    refine ⟨network, config, calls ++ [call], ?_⟩
    unfold run at hrun
    rw [run, afterAll_concat, hrun]
    exact after_of_perform answer

end Indexer

/-! ## Which wallets move -/

namespace Store

variable {s t : Store}

/-- The wallets that a batch moves: those in its scope, if it has a header. -/
def moving (s : Store) (scope : Scope) : Option BatchHeader → List WalletRow
  | none => []
  | some _ => s.wallets.filter scope.covers

/-- The wallets that move are named in the order of the store. -/
theorem names_of_advance {scope : Scope} {header : Option BatchHeader} {chain : ChainView}
    {names : List String} (h : s.advance scope header chain = .ok (names, t)) :
    names = (s.moving scope header).map (·.name) := by
  cases header with
  | none =>
    cases h
    rfl
  | some header =>
    rw [moving]
    unfold advance at h
    dsimp only at h
    split at h
    · rename_i hnone
      cases h
      rw [hnone]
      rfl
    · obtain ⟨locator, -, h⟩ := bind_eq_ok_iff.1 h
      cases h
      rfl

theorem moving_congr (hwallets : s.wallets = t.wallets) (scope : Scope) (header : Option BatchHeader) :
    s.moving scope header = t.moving scope header := by
  cases header with
  | none => rfl
  | some header => rw [moving, moving, hwallets]

/-- A batch names the wallets that stand at its parent. -/
theorem advanced_of_applyBatch {config : Config} {batch : Batch} {header : Option BatchHeader}
    {chain : ChainView} {outcome : BatchOutcome}
    (h : s.applyBatch config batch header chain = .ok (outcome, t)) :
    outcome.advanced = (s.moving (Scope.ofBatch config header) header).map (·.name) := by
  obtain ⟨found, m, names, hrounds, hmoved, rfl⟩ := applyBatch_eq_ok_iff.1 h
  have hwallets : (m.matchSpends (Scope.ofBatch config header) batch).2.wallets = s.wallets :=
    (frame_rounds hrounds).1
  rw [← moving_congr hwallets]
  exact names_of_advance hmoved

/-- Wallets are numbered in their order. -/
theorem WellFormed.pairwise_wallet_ids (hs : s.WellFormed) :
    s.wallets.Pairwise fun v w => v.id < w.id := by
  have hids : (s.wallets.map (·.id)).Pairwise (· < ·) := by
    rw [hs.wallet_ids, List.pairwise_map]
    refine List.pairwise_lt_range.imp fun {m n} hmn => ?_
    have hcast : (m : Int) < n := Int.ofNat_lt.2 hmn
    omega
  exact List.pairwise_map.1 hids

/-- A name has one row. -/
theorem WellFormed.walletRow?_eq_some (hs : s.WellFormed) {row : WalletRow} (hrow : row ∈ s.wallets) :
    s.walletRow? row.name = some row := by
  unfold walletRow?
  cases hfind : s.wallets.find? (·.name == row.name) with
  | none => exact absurd (beq_self_eq_true row.name) (List.find?_eq_none.1 hfind row hrow)
  | some row' =>
    have hname : row'.name = row.name := by simpa using List.find?_some hfind
    rw [List.inj_on_of_nodup_map hs.wallet_names (List.mem_of_find?_eq_some hfind) hrow hname]

/-- A batch names a wallet if and only if the wallet takes part. -/
theorem mem_advanced_iff (hs : s.WellFormed) {config : Config} {batch : Batch} {header : BatchHeader}
    {chain : ChainView} {outcome : BatchOutcome} {name : String} {row : WalletRow}
    (h : s.applyBatch config batch (some header) chain = .ok (outcome, t))
    (hrow : s.walletRow? name = some row) :
    name ∈ outcome.advanced ↔ (Scope.ofBatch config (some header)).covers row = true := by
  have hname : row.name = name := by simpa using List.find?_some hrow
  rw [advanced_of_applyBatch h, moving, List.mem_map]
  constructor
  · rintro ⟨row', hrow', hname'⟩
    obtain ⟨hmem, hcovers⟩ := List.mem_filter.1 hrow'
    have hsame := hs.walletRow?_eq_some hmem
    rw [hname', hrow] at hsame
    cases hsame
    exact hcovers
  · intro hcovers
    exact ⟨row, List.mem_filter.2 ⟨List.mem_of_find?_eq_some hrow, hcovers⟩, hname⟩

theorem hash_of_covers {config : Config} {header : BatchHeader} {row : WalletRow}
    (h : (Scope.ofBatch config (some header)).covers row = true) : row.hash = header.parent.bytes := by
  rw [Scope.covers, Bool.and_eq_true] at h
  exact (beq_iff_eq.1 h.2).symm

end Store

namespace Indexer

open Store

variable {ix ix' : Indexer} {name : String} {hash : Bytes}

/-- A call that names a wallet as moved has applied its batch. -/
theorem applyBatch_of_outcome? {call : Call} {outcome : BatchOutcome}
    (h : ix.outcome? call = some outcome) (hname : name ∈ outcome.advanced) : ∃ ix' b chain,
      ix.perform call = .ok ix' ∧
      ix.store.applyBatch ix.config b call.header? chain = .ok (outcome, ix'.store) := by
  have hanswered : ∀ {result : Result (BatchOutcome × Indexer)},
      result.toOption.map (·.1) = some outcome → ∃ ix', result = .ok (outcome, ix') := by
    intro result hresult
    cases result with
    | error e => cases hresult
    | ok answer =>
      cases hresult
      exact ⟨answer.2, rfl⟩
  cases call with
  | processBatch batch header chain =>
    obtain ⟨ix', hanswer⟩ := hanswered h
    exact ⟨ix', _, _, map_eq_ok_iff.2 ⟨_, hanswer, rfl⟩, (applyBatch_of_processBatch hanswer).1⟩
  | processBlock placed chain =>
    obtain ⟨ix', hanswer⟩ := hanswered h
    exact ⟨ix', _, _, map_eq_ok_iff.2 ⟨_, hanswer, rfl⟩, (applyBatch_of_processBatch hanswer).1⟩
  | processBlocks blocks chain =>
    obtain ⟨ix', hanswer⟩ := hanswered h
    have hcall : ix.perform (.processBlocks blocks chain) = .ok ix' :=
      map_eq_ok_iff.2 ⟨_, hanswer, rfl⟩
    unfold processBlocks at hanswer
    split at hanswer
    · cases hanswer
    · -- no blocks move no wallet
      cases hanswer
      cases hname
    · rename_i header hheader
      have hcalled : (Call.processBlocks blocks chain).header? = some header := by
        rw [Call.header?, hheader]
      rw [hcalled]
      exact ⟨ix', _, _, hcall, (applyBatch_of_processBatch hanswer).1⟩
  | processTransaction tx time =>
    obtain ⟨ix', hanswer⟩ := hanswered h
    exact ⟨ix', _, _, map_eq_ok_iff.2 ⟨_, hanswer, rfl⟩, (applyBatch_of_processBatch hanswer).1⟩
  | _ => cases h

/-- A wallet to which a header is applied stands at its parent, and afterwards at its tip. -/
theorem synced_of_outcome? (hs : ix.store.WellFormed) {call : Call} {header : BatchHeader}
    {outcome : BatchOutcome} (hheader : call.header? = some header)
    (h : ix.outcome? call = some outcome) (hname : name ∈ outcome.advanced) :
    ix.store.synced? name = some header.parent.bytes ∧ ∃ ix', ix.perform call = .ok ix' ∧
      ix'.store.synced? name = some header.tip.hash.bytes := by
  obtain ⟨ix', b, chain, hcall, happly⟩ := applyBatch_of_outcome? h hname
  rw [hheader] at happly
  rw [advanced_of_applyBatch happly, moving, List.mem_map] at hname
  obtain ⟨row, hrow, rfl⟩ := hname
  obtain ⟨hmem, hcovers⟩ := List.mem_filter.1 hrow
  have hfound := hs.walletRow?_eq_some hmem
  obtain ⟨locator, -, hmoved⟩ :=
    walletRow?_of_covers (moves_applyBatch hs happly) hfound hcovers
  refine ⟨?_, ix', hcall, ?_⟩
  · rw [synced?, hfound, Option.map_some, hash_of_covers hcovers]
  · rw [synced?, hmoved]
    rfl

/-- A batch leaves a wallet where it is or takes it from the parent of its header to the tip. -/
theorem synced_of_applyBatch {s t : Store} (hs : s.WellFormed) (hsynced : s.synced? name = some hash)
    {config : Config} {batch : Batch} {header : Option BatchHeader} {chain : ChainView}
    {outcome : BatchOutcome} (h : s.applyBatch config batch header chain = .ok (outcome, t)) :
    t.synced? name = some hash ∨ ∃ header', header = some header' ∧ hash = header'.parent.bytes ∧
      t.synced? name = some header'.tip.hash.bytes := by
  obtain ⟨row, hrow, rfl⟩ := Option.map_eq_some_iff.1 hsynced
  cases header with
  | none =>
    rw [synced?, walletRow?, wallets_applyBatch_none h]
    exact .inl hsynced
  | some header =>
    have hmoves := moves_applyBatch hs h
    by_cases hcovers : (Scope.ofBatch config (some header)).covers row = true
    · obtain ⟨locator, -, hmoved⟩ := walletRow?_of_covers hmoves hrow hcovers
      rw [synced?, hmoved]
      exact .inr ⟨header, rfl, hash_of_covers hcovers, rfl⟩
    · rw [synced?, walletRow?_of_not_covers hmoves hrow hcovers]
      exact .inl rfl

/-- A rollback of a wallet moves it back or changes nothing. -/
theorem synced_of_rollback (hsynced : ix.store.synced? name = some hash) {target : UInt32}
    {chain : ChainView} (h : ix.perform (.rollback name target chain) = .ok ix') :
    ∃ hash', ix'.store.synced? name = some hash' ∧
      (hash' = hash ∨ ∃ next, ix.rollback name target chain = .ok (true, next)) := by
  obtain ⟨⟨moved, next⟩, hanswer, rfl⟩ := map_eq_ok_iff.1 h
  obtain ⟨w, -, hcall⟩ := bind_eq_ok_iff.1 hanswer
  obtain ⟨⟨moved, store⟩, hrollback, heq⟩ := bind_eq_ok_iff.1 hcall
  cases heq
  obtain ⟨row, hrow, rfl⟩ := Option.map_eq_some_iff.1 hsynced
  unfold Store.rollback at hrollback
  split at hrollback
  · split at hrollback
    · cases hrollback
    · rename_i tip _
      obtain ⟨locator, -, hrollback⟩ := bind_eq_ok_iff.1 hrollback
      cases hrollback
      have hundone : (ix.store.undoAbove w.id target).walletRow? name = some row := hrow
      rw [synced?, walletRow?_setTip, hundone]
      exact ⟨_, rfl, .inr ⟨_, hanswer⟩⟩
  · cases hrollback
    exact ⟨_, hsynced, .inl rfl⟩

/-- A call moves a wallet of the open store only if its batch extends the block that the wallet is
synced to, or if it rolls the wallet back. -/
theorem synced_of_call (hs : ix.store.WellFormed) (hsynced : ix.store.synced? name = some hash)
    {call : Call} (hcall : ∀ network config, call ≠ .reopen network config)
    (h : ix.perform call = .ok ix') : ∃ hash', ix'.store.synced? name = some hash' ∧
      (hash' = hash ∨
      (∃ header, call.header? = some header ∧ hash = header.parent.bytes ∧
        hash' = header.tip.hash.bytes) ∨
      ∃ target chain, call = .rollback name target chain ∧
        ∃ next, ix.rollback name target chain = .ok (true, next)) := by
  cases hb : call.batch? with
  | some b =>
    rcases perform_batch (Option.mem_def.2 hb) h with hstore | ⟨chain, outcome, happly⟩
    · rw [hstore]
      exact ⟨hash, hsynced, .inl rfl⟩
    · rcases synced_of_applyBatch hs hsynced happly with hsame | ⟨header, hheader, hparent, hmoved⟩
      · exact ⟨hash, hsame, .inl rfl⟩
      · exact ⟨_, hmoved, .inr (.inl ⟨header, hheader, hparent, rfl⟩)⟩
  | none =>
    cases call with
    | createWallet new tip view =>
      obtain ⟨answer, hanswer, rfl⟩ := map_eq_ok_iff.1 h
      obtain ⟨-, locator, -, hinsert⟩ := insert_of_createWallet hanswer
      obtain ⟨row, hrow, rfl⟩ := Option.map_eq_some_iff.1 hsynced
      rw [synced?, (walletRow?_insertWallet hinsert hrow).1]
      exact ⟨_, rfl, .inl rfl⟩
    | createAccount wallet index accountName extendedKey created =>
      obtain ⟨answer, hanswer, rfl⟩ := map_eq_ok_iff.1 h
      obtain ⟨-, -, opened, addresses, hinsert, hextend⟩ := extend_of_createAccount hanswer
      rw [eq_of_insertAccount hinsert] at hextend
      rw [eq_of_extendPools hextend]
      exact ⟨hash, hsynced, .inl rfl⟩
    | rollback wallet target chain =>
      by_cases hname : wallet = name
      · subst hname
        obtain ⟨hash', hsynced', hcases⟩ := synced_of_rollback hsynced h
        exact ⟨hash', hsynced', hcases.imp_right fun hback => .inr ⟨target, chain, rfl, hback⟩⟩
      · obtain ⟨w, -, hundone⟩ := undone_of_perform hs rfl h
        rw [synced?, hundone.wallets name fun heq => hname heq.symm]
        exact ⟨hash, hsynced, .inl rfl⟩
    | removeUnconfirmed wallet txid =>
      obtain ⟨w, -, rfl⟩ := drop_of_removeUnconfirmed h
      exact ⟨hash, hsynced, .inl rfl⟩
    | reopen network config => exact absurd rfl (hcall network config)
    | _ => cases hb

/-- **How a call moves a wallet** of a network: not at all, from the parent of its header to the tip, or
back. -/
theorem synced_of_perform (hs : ix.store.WellFormed) {network : Network}
    (hsynced : (ix.storeOf network).synced? name = some hash) {call : Call}
    (h : ix.perform call = .ok ix') : ∃ hash', (ix'.storeOf network).synced? name = some hash' ∧
      (hash' = hash ∨
      (∃ header, call.header? = some header ∧ hash = header.parent.bytes ∧
        hash' = header.tip.hash.bytes) ∨
      (ix.network = network ∧ ∃ target chain, call = .rollback name target chain ∧
        ∃ next, ix.rollback name target chain = .ok (true, next))) := by
  by_cases hopen : ∃ n config, call = .reopen n config
  · obtain ⟨n, config, rfl⟩ := hopen
    cases h
    rw [storeOf_reopen]
    exact ⟨hash, hsynced, .inl rfl⟩
  · have hcall : ∀ n config, call ≠ .reopen n config := fun n config heq => hopen ⟨n, config, heq⟩
    by_cases hnetwork : network = ix.network
    · subst hnetwork
      rw [storeOf_network] at hsynced
      have hstore : ix'.storeOf ix.network = ix'.store := by
        rw [← network_of_perform hcall h, storeOf_network]
      obtain ⟨hash', hsynced', hcases⟩ := synced_of_call hs hsynced hcall h
      rw [hstore]
      exact ⟨hash', hsynced', hcases.imp_right (.imp_right fun hback => ⟨rfl, hback⟩)⟩
    · rcases @perform_cases (fun _ => True) _ _ _ (fun _ _ => trivial) h with
        ⟨n, config, hreopen, -⟩ | ⟨-, hnet, -, hclosed⟩
      · exact absurd hreopen (hcall n config)
      · -- the stores of other networks wait
        rw [storeOf, if_neg hnetwork] at hsynced
        rw [storeOf, hnet, if_neg hnetwork, hclosed]
        exact ⟨hash, hsynced, .inl rfl⟩

end Indexer

/-! ## Walks along headers -/

/-- What lies a number of edges away from something that no edge leads to. -/
inductive Depth {α : Type} (Edge : α → α → Prop) : Nat → α → Prop
  | root {a : α} (none : ∀ b, ¬ Edge b a) : Depth Edge 0 a
  | step {n : Nat} {a b : α} (before : Depth Edge n a) (edge : Edge a b) : Depth Edge (n + 1) b

/-- If edges can be followed back in one way, the depth is one number. -/
theorem Depth.eq {α : Type} {Edge : α → α → Prop}
    (hback : ∀ a a' b, Edge a b → Edge a' b → a = a') {m n : Nat} {a : α} (h : Depth Edge m a)
    (h' : Depth Edge n a) : m = n := by
  induction h generalizing n with
  | root hnone =>
    cases h' with
    | root => rfl
    | step before edge => exact absurd edge (hnone _)
  | step before edge ih =>
    cases h' with
    | root hnone => exact absurd edge (hnone _)
    | step before' edge' =>
      rw [hback _ _ _ edge' edge] at before'
      rw [ih before']

/-- A walk stays, follows an edge or jumps back, to where it has been or to where no edge leads. -/
structure Walk {α : Type} (Edge : α → α → Prop) (Jumps : Nat → Prop) (x : Nat → α) : Prop where
  back : ∀ a a' b, Edge a b → Edge a' b → a = a'
  root : ∀ a, ¬ Edge a (x 0)
  step : ∀ k, x (k + 1) = x k ∨ Edge (x k) (x (k + 1)) ∨ Jumps k
  lands : ∀ k, Jumps k → (∀ a, ¬ Edge a (x (k + 1))) ∨ ∃ k' ≤ k, x (k + 1) = x k'

namespace Walk

variable {α : Type} {Edge : α → α → Prop} {Jumps : Nat → Prop} {x : Nat → α}

/-- A walk is at some depth all the time. -/
theorem exists_depth (h : Walk Edge Jumps x) (k : Nat) : ∃ n, Depth Edge n (x k) := by
  induction k using Nat.strongRecOn with
  | ind k ih =>
    cases k with
    | zero => exact ⟨0, .root h.root⟩
    | succ k =>
      obtain ⟨n, hn⟩ := ih k (Nat.lt_succ_self k)
      rcases h.step k with hsame | hedge | hjumps
      · rw [hsame]
        exact ⟨n, hn⟩
      · exact ⟨n + 1, .step hn hedge⟩
      · rcases h.lands k hjumps with hnone | ⟨k', hk', hsame⟩
        · exact ⟨0, .root hnone⟩
        · rw [hsame]
          exact ih k' (Nat.lt_succ_of_le hk')

/-- Without jumps a walk does not come up. -/
theorem depth_le (h : Walk Edge Jumps x) {i d m n : Nat}
    (hjumps : ∀ k, i ≤ k → k < i + d → ¬ Jumps k) (hm : Depth Edge m (x i))
    (hn : Depth Edge n (x (i + d))) : m ≤ n := by
  induction d generalizing n with
  | zero => exact Nat.le_of_eq (hm.eq h.back hn)
  | succ d ih =>
    obtain ⟨n', hn'⟩ := h.exists_depth (i + d)
    have hle : m ≤ n' := ih (fun k hi hk => hjumps k hi (by omega)) hn'
    rcases h.step (i + d) with hsame | hedge | hjump
    · rw [← Nat.add_assoc, hsame] at hn
      rw [← hn'.eq h.back hn]
      exact hle
    · have hnext := hn.eq h.back (.step hn' hedge)
      omega
    · exact absurd hjump (hjumps _ (Nat.le_add_right i d) (Nat.lt_succ_self _))

/-- **A walk that comes back to the start of an edge** has jumped since. -/
theorem exists_jump (h : Walk Edge Jumps x) {i j : Nat} (hij : i < j) (hedge : Edge (x i) (x (i + 1)))
    (hreturn : x j = x i) : ∃ k, i < k ∧ k < j ∧ Jumps k := by
  by_contra hnone
  obtain ⟨n, hn⟩ := h.exists_depth i
  obtain ⟨d, rfl⟩ : ∃ d, j = i + 1 + d := Nat.exists_eq_add_of_le hij
  have hle : n + 1 ≤ n := by
    refine h.depth_le (fun k hi hk hjump => hnone ⟨k, by omega, hk, hjump⟩) (.step hn hedge) ?_
    rw [hreturn]
    exact hn
  omega

end Walk

/-- Some header of a set leads from one block to another. -/
def BatchHeader.Leads (headers : BatchHeader → Prop) (a b : Option Bytes) : Prop :=
  ∃ header, headers header ∧ a = some header.parent.bytes ∧ b = some header.tip.hash.bytes

namespace Indexer

open Store

variable {ix : Indexer} {calls : List Call} {headers : BatchHeader → Prop} {name : String}

/-- One call of a run. -/
theorem syncedAt?_succ (hreach : ix.Reachable)
    (hheaders : ∀ call ∈ calls, ∀ header ∈ call.header?, headers header) {k : Nat} {hash : Bytes}
    (hsynced : ix.syncedAt? calls name k = some hash) :
    ∃ hash', ix.syncedAt? calls name (k + 1) = some hash' ∧
      (hash' = hash ∨ BatchHeader.Leads headers (some hash) (some hash') ∨
        ix.RollsBackAt calls name k) := by
  cases hcall : calls[k]? with
  | none =>
    -- the run is over
    have hlength : calls.length ≤ k := List.getElem?_eq_none_iff.1 hcall
    refine ⟨hash, ?_, .inl rfl⟩
    rw [syncedAt?, List.take_of_length_le hlength] at hsynced
    rw [syncedAt?, List.take_of_length_le (Nat.le_succ_of_le hlength)]
    exact hsynced
  | some call =>
    rw [syncedAt?, afterAll_take_succ hcall]
    rcases (ix.afterAll (calls.take k)).after_cases call with hok | hsame
    · have hnow : (ix.afterAll (calls.take k)).Reachable := hreach.afterAll
      obtain ⟨hash', hsynced', hcases⟩ := synced_of_perform hnow.wellFormed hsynced hok
      refine ⟨hash', hsynced', hcases.imp_right fun hmoved => ?_⟩
      rcases hmoved with ⟨header, hheader, rfl, rfl⟩ | ⟨hnetwork, target, chain, rfl, hback⟩
      · exact .inl ⟨header, hheaders call (List.mem_of_getElem? hcall) header hheader, rfl, rfl⟩
      · exact .inr ⟨hnetwork, target, chain, hcall, hback⟩
    · rw [hsame]
      exact ⟨hash, hsynced, .inl rfl⟩

/-- A call of a run that applies a header moves the wallet from the parent to the tip. -/
theorem synced_of_appliesAt (hreach : ix.Reachable) {header : BatchHeader} {i : Nat}
    (h : ix.AppliesAt calls header name i) :
    ix.syncedAt? calls name i = some header.parent.bytes ∧
      ix.syncedAt? calls name (i + 1) = some header.tip.hash.bytes := by
  obtain ⟨hnetwork, call, hcall, hheader, outcome, houtcome, hname⟩ := h
  have hnow : (ix.afterAll (calls.take i)).Reachable := hreach.afterAll
  obtain ⟨hfrom, ix', hperform, hto⟩ := synced_of_outcome? hnow.wellFormed hheader houtcome hname
  have hopen : ∀ network config, call ≠ .reopen network config := by
    rintro network config rfl
    cases hheader
  have hnetwork' : ix'.network = ix.network := (network_of_perform hopen hperform).trans hnetwork
  rw [syncedAt?, syncedAt?, afterAll_take_succ hcall, after_of_perform hperform]
  constructor
  · rw [← hnetwork, storeOf_network]
    exact hfrom
  · rw [← hnetwork', storeOf_network]
    exact hto

/-- **A run of calls walks a wallet** along the headers of its batches. -/
theorem walk_of_calls (hreach : ix.Reachable) {hash : Bytes}
    (hsynced : ix.store.synced? name = some hash)
    (htips : ∀ header header', headers header → headers header' →
      header.tip.hash = header'.tip.hash → header = header')
    (hroot : ∀ header, headers header → header.tip.hash.bytes ≠ hash)
    (hheaders : ∀ call ∈ calls, ∀ header ∈ call.header?, headers header)
    (hback : ∀ k, ix.RollsBackAt calls name k →
      (∀ header, headers header → ix.syncedAt? calls name (k + 1) ≠ some header.tip.hash.bytes) ∨
      ∃ k' ≤ k, ix.syncedAt? calls name (k + 1) = ix.syncedAt? calls name k') :
    Walk (BatchHeader.Leads headers) (ix.RollsBackAt calls name) (ix.syncedAt? calls name) := by
  have hstart : ix.syncedAt? calls name 0 = some hash := by
    rw [syncedAt?, List.take_zero]
    exact (congrArg (synced? · name) ix.storeOf_network).trans hsynced
  have hthere : ∀ k, ∃ hash, ix.syncedAt? calls name k = some hash := by
    intro k
    induction k with
    | zero => exact ⟨hash, hstart⟩
    | succ k ih =>
      obtain ⟨hash, hk⟩ := ih
      obtain ⟨hash', hk', -⟩ := syncedAt?_succ hreach hheaders hk
      exact ⟨hash', hk'⟩
  constructor
  case back =>
    rintro a a' b ⟨header, hheader, rfl, rfl⟩ ⟨header', hheader', rfl, htip⟩
    rw [htips header header' hheader hheader' (Hash256.ext (Option.some.inj htip))]
  case root =>
    rintro a ⟨header, hheader, -, htip⟩
    rw [hstart] at htip
    exact hroot header hheader (Option.some.inj htip).symm
  case step =>
    intro k
    obtain ⟨hash, hk⟩ := hthere k
    obtain ⟨hash', hk', hcases⟩ := syncedAt?_succ hreach hheaders hk
    rw [hk, hk']
    exact hcases.imp_left (congrArg some)
  case lands =>
    intro k hk
    refine (hback k hk).imp_left fun hnone => ?_
    rintro a ⟨header, hheader, -, htip⟩
    exact hnone header hheader htip

/-- To see that a call of a run applies a header, its outcome is computed. -/
theorem appliesAt_of_advanced {header : BatchHeader} {i : Nat} {call : Call} {names : List String}
    (hcall : calls[i]? = some call) (hheader : call.header? = some header)
    (h : (ix.afterAll (calls.take i)).network = ix.network ∧
      ((ix.afterAll (calls.take i)).outcome? call).map (·.advanced) = some names)
    (hname : name ∈ names) : ix.AppliesAt calls header name i := by
  obtain ⟨hnetwork, hanswer⟩ := h
  obtain ⟨outcome, houtcome, rfl⟩ := Option.map_eq_some_iff.1 hanswer
  exact ⟨hnetwork, call, hcall, hheader, outcome, houtcome, hname⟩

end Indexer

namespace Sample

/-- A block is applied, taken back and applied again. -/
def again : List Call :=
  [.processBlock paying view, .rollback "savings" 0 view, .processBlock paying view]

/-- The wallet moves each time, and is taken back to where it was. -/
theorem advanced_again : (∀ i ∈ [0, 2],
    ((opened unbuffered).afterAll (again.take i)).network = (opened unbuffered).network ∧
      (((opened unbuffered).afterAll (again.take i)).outcome? (.processBlock paying view)).map
        (·.advanced) = some ["savings"]) ∧
    (opened unbuffered).syncedAt? again "savings" 2 =
      (opened unbuffered).syncedAt? again "savings" 0 := by
  decide +kernel

/-- A block hash that repeats one byte. -/
def hash (byte : UInt8) : Hash256 := ⟨List.replicate 32 byte, List.length_replicate⟩

/-- A chain that has one hash at every height. -/
def flat : ChainView := fun _ => some (hash 1)

/-- A header that is applied twice after a rollback. -/
def turn : BatchHeader := ⟨hash 1, ⟨1, hash 3⟩⟩

/-- The tips of three headers: one is left by a rollback to a block that another one leads to. -/
def turns : List BatchHeader := [⟨Hash256.zero, ⟨1, hash 2⟩⟩, turn, ⟨hash 3, ⟨2, hash 1⟩⟩]

/-- A run around these headers, in which a rollback comes before both times. -/
def round : List Call :=
  [.processBatch .empty (some ⟨Hash256.zero, ⟨1, hash 2⟩⟩) flat, .rollback "savings" 0 flat,
    .processBatch .empty (some turn) flat, .processBatch .empty (some ⟨hash 3, ⟨2, hash 1⟩⟩) flat,
    .processBatch .empty (some turn) flat]

theorem advanced_round : ∀ i ∈ [2, 4],
    ((opened unbuffered).afterAll (round.take i)).network = (opened unbuffered).network ∧
      (((opened unbuffered).afterAll (round.take i)).outcome?
        (.processBatch .empty (some turn) flat)).map (·.advanced) = some ["savings"] := by
  decide +kernel

end Sample

namespace Indexer

open Store

variable {ix : Indexer}

/-- **A header is applied to the wallets that it moves, and to each at most once between rollbacks.**
A batch with a header names, in the order of their identifiers, the wallets that the mode allows and that
are synced to the parent. These are at its tip afterwards, and all others have the tip, the locator,
the accounts, the addresses and the ledger that they had. So in a run whose headers have tips of their
own, none of them the block that a wallet starts at, a header that is applied to the wallet twice has a
rollback of it in between, as long as rollbacks take the wallet to blocks that it has been at or that
are no tips. -/
theorem header_applied_once (hreach : ix.Reachable) :
    (∀ {batch : Batch} {header : BatchHeader} {chain : ChainView} {outcome : BatchOutcome}
        {ix' : Indexer}, ix.processBatch batch (some header) chain = .ok (outcome, ix') →
      outcome.advanced = (ix.store.wallets.filter fun row =>
        ix.config.mode.walletName.all (· == row.name) && row.hash == header.parent.bytes).map
          (·.name) ∧
      ix.store.wallets.Pairwise (fun v w => v.id < w.id) ∧
      (∀ name ∈ outcome.advanced, ∃ w, ix'.store.wallet name = .ok w ∧ w.tip = some header.tip) ∧
      ∀ row ∈ ix.store.wallets, row.name ∉ outcome.advanced →
        ix'.store.walletRow? row.name = some row ∧ ix'.store.share row.id = ix.store.share row.id) ∧
    ∀ {name : String} {hash : Bytes} {headers : BatchHeader → Prop} {calls : List Call}
        {header : BatchHeader} {i j : Nat}, ix.store.synced? name = some hash →
      (∀ header header', headers header → headers header' →
        header.tip.hash = header'.tip.hash → header = header') →
      (∀ header, headers header → header.tip.hash.bytes ≠ hash) →
      (∀ call ∈ calls, ∀ header ∈ call.header?, headers header) →
      (∀ k, ix.RollsBackAt calls name k →
        (∀ header, headers header → ix.syncedAt? calls name (k + 1) ≠ some header.tip.hash.bytes) ∨
        ∃ k' ≤ k, ix.syncedAt? calls name (k + 1) = ix.syncedAt? calls name k') →
      i < j → ix.AppliesAt calls header name i → ix.AppliesAt calls header name j →
      ∃ k, i < k ∧ k < j ∧ ix.RollsBackAt calls name k := by
  have hs := hreach.wellFormed
  constructor
  · intro batch header chain outcome ix' h
    obtain ⟨happly, -⟩ := applyBatch_of_processBatch h
    have hmoves := moves_applyBatch hs happly
    refine ⟨?_, hs.pairwise_wallet_ids, ?_, ?_⟩
    · rw [advanced_of_applyBatch happly, moving]
      refine congrArg (List.map _) (List.filter_congr fun row _ => ?_)
      rw [Scope.covers, Bool.beq_comm]
      rfl
    · intro name hname
      rw [advanced_of_applyBatch happly, moving, List.mem_map] at hname
      obtain ⟨row, hrow, rfl⟩ := hname
      obtain ⟨hmem, hcovers⟩ := List.mem_filter.1 hrow
      obtain ⟨locator, -, hmoved⟩ := walletRow?_of_covers hmoves (hs.walletRow?_eq_some hmem) hcovers
      exact ⟨_, (wallet_of_walletRow? hmoved).trans (decode_withTip _ _ _), rfl⟩
    · intro row hrow hname
      have hfound := hs.walletRow?_eq_some hrow
      have hcovers := mt (mem_advanced_iff hs happly hfound).2 hname
      refine ⟨walletRow?_of_not_covers hmoves hfound hcovers,
        share_applyBatch_of_not_inScope hs ?_ happly⟩
      rw [hs.inScope_eq hrow]
      exact Bool.eq_false_iff.2 hcovers
  · intro name hash headers calls header i j hsynced htips hroot hheaders hback hij happly happly'
    have hwalk := walk_of_calls hreach hsynced htips hroot hheaders hback
    obtain ⟨hfrom, hto⟩ := synced_of_appliesAt hreach happly
    obtain ⟨hagain, -⟩ := synced_of_appliesAt hreach happly'
    obtain ⟨-, call, hcall, hcalled, -⟩ := happly
    have hheader := hheaders call (List.mem_of_getElem? hcall) header (Option.mem_def.2 hcalled)
    refine hwalk.exists_jump hij ⟨header, hheader, hfrom, hto⟩ ?_
    rw [hfrom, hagain]

/-- A block that is applied, taken back and applied again. -/
theorem header_applied_once_again : ∃ ix : Indexer, ix.Reachable ∧
    ix.AppliesAt Sample.again ⟨Hash256.zero, Sample.paying.ref⟩ "savings" 0 ∧
    ix.AppliesAt Sample.again ⟨Hash256.zero, Sample.paying.ref⟩ "savings" 2 ∧
    (∃ k, 0 < k ∧ k < 2 ∧ ix.RollsBackAt Sample.again "savings" k) ∧
    ∃ outcome ix', ix.processBatch (Batch.ofBlock Sample.paying)
        (some ⟨Hash256.zero, Sample.paying.ref⟩) Sample.view = .ok (outcome, ix') ∧
      outcome.advanced = ["savings"] ∧
      ∃ w, ix'.store.wallet "savings" = .ok w ∧ w.tip = some Sample.paying.ref := by
  obtain ⟨past, hist, -⟩ := Sample.history Sample.unbuffered
  have hreach : (Sample.opened Sample.unbuffered).Reachable := ⟨_, past, hist⟩
  obtain ⟨hadvanced, hlanded⟩ := Sample.advanced_again
  obtain ⟨happlied, honce⟩ := header_applied_once hreach
  have hfirst : (Sample.opened Sample.unbuffered).AppliesAt Sample.again
      ⟨Hash256.zero, Sample.paying.ref⟩ "savings" 0 :=
    appliesAt_of_advanced rfl rfl (hadvanced 0 (by decide)) List.mem_cons_self
  have hsecond : (Sample.opened Sample.unbuffered).AppliesAt Sample.again
      ⟨Hash256.zero, Sample.paying.ref⟩ "savings" 2 :=
    appliesAt_of_advanced rfl rfl (hadvanced 2 (by decide)) List.mem_cons_self
  have hback : ∃ k, 0 < k ∧ k < 2 ∧
      (Sample.opened Sample.unbuffered).RollsBackAt Sample.again "savings" k := by
    refine @honce _ _ (· = ⟨Hash256.zero, Sample.paying.ref⟩) _ _ 0 2 rfl ?_ ?_ ?_ ?_ (by decide) hfirst
      hsecond
    · rintro header header' rfl rfl -
      rfl
    · rintro header rfl
      decide +kernel
    · intro call hcall header hheader
      simp only [Sample.again, List.mem_cons, List.not_mem_nil, or_false] at hcall
      rcases hcall with rfl | rfl | rfl
      · exact (Option.some.inj hheader).symm
      · cases hheader
      · exact (Option.some.inj hheader).symm
    · rintro k ⟨-, target, chain, hcall, -⟩
      -- the one rollback is the second call
      have hk : k = 1 := by
        match k with
        | 0 => cases hcall
        | 1 => rfl
        | 2 => cases hcall
        | k + 3 => cases hcall
      subst hk
      exact .inr ⟨0, Nat.zero_le 1, hlanded⟩
  have hblock : ((Sample.opened Sample.unbuffered).processBatch (Batch.ofBlock Sample.paying)
      (some ⟨Hash256.zero, Sample.paying.ref⟩) Sample.view).map (·.1.advanced) = .ok ["savings"] := by
    decide +kernel
  obtain ⟨⟨outcome, ix'⟩, hanswer, hnames⟩ := map_eq_ok_iff.1 hblock
  obtain ⟨-, -, htip, -⟩ := happlied hanswer
  have hmember : "savings" ∈ outcome.advanced := by
    rw [hnames]
    exact List.mem_cons_self
  exact ⟨_, hreach, hfirst, hsecond, hback, outcome, ix', hanswer, hnames, htip "savings" hmember⟩

/-- Without a condition on where rollbacks lead, a header may be applied twice after a rollback: the
headers of the run have tips of their own, and the wallet starts at none of them. -/
theorem header_applied_around : ∃ ix : Indexer, ix.Reachable ∧
    ix.store.synced? "savings" = some Hash256.zero.bytes ∧
    (∀ header ∈ Sample.turns, ∀ header' ∈ Sample.turns,
      header.tip.hash = header'.tip.hash → header = header') ∧
    (∀ header ∈ Sample.turns, header.tip.hash.bytes ≠ Hash256.zero.bytes) ∧
    (∀ call ∈ Sample.round, ∀ header ∈ call.header?, header ∈ Sample.turns) ∧
    ix.AppliesAt Sample.round Sample.turn "savings" 2 ∧
    ix.AppliesAt Sample.round Sample.turn "savings" 4 ∧
    ∀ k, 2 < k → k < 4 → ¬ ix.RollsBackAt Sample.round "savings" k := by
  obtain ⟨past, hist, -⟩ := Sample.history Sample.unbuffered
  refine ⟨_, ⟨_, past, hist⟩, rfl, by decide +kernel, by decide +kernel, ?_,
    appliesAt_of_advanced rfl rfl (Sample.advanced_round 2 (by decide)) List.mem_cons_self,
    appliesAt_of_advanced rfl rfl (Sample.advanced_round 4 (by decide)) List.mem_cons_self, ?_⟩
  · intro call hcall header hheader
    simp only [Sample.round, List.mem_cons, List.not_mem_nil, or_false] at hcall
    rcases hcall with rfl | rfl | rfl | rfl | rfl
    · cases hheader
      exact List.mem_cons_self
    · cases hheader
    · cases hheader
      exact List.mem_cons_of_mem _ List.mem_cons_self
    · cases hheader
      exact List.mem_cons_of_mem _ (List.mem_cons_of_mem _ List.mem_cons_self)
    · cases hheader
      exact List.mem_cons_of_mem _ List.mem_cons_self
  · rintro k hlt hgt ⟨-, target, chain, hcall, -⟩
    have hk : k = 3 := by omega
    subst hk
    cases hcall

end Indexer

end WalletLedger
