import Mathlib.Data.List.Nodup
import WalletLedger.Proofs.Write

/-!
# Calls as steps

A call opens another store, or takes a step on the open one and leaves the others alone. What empty
stores have and every step keeps, every store of a history has.

* `Indexer.perform_cases`: what a call does.
* `Indexer.History.store_induction`: the induction over the states of a history, and
  `Indexer.History.store_invariant`, the same without a test on the states.
* `Sample.history`: a history to try statements on.
-/

namespace WalletLedger

namespace Indexer

open Store

variable {staged : Batch → Prop} {ix ix' : Indexer}

theorem applyBatch_of_processBatch {batch : Batch} {header : Option BatchHeader} {chain : ChainView}
    {outcome : BatchOutcome} (h : ix.processBatch batch header chain = .ok (outcome, ix')) :
    ix.store.applyBatch ix.config batch header chain = .ok (outcome, ix'.store) ∧
      ix'.config = ix.config := by
  obtain ⟨answer, happly, h⟩ := bind_eq_ok_iff.1 h
  cases h
  exact ⟨happly, rfl⟩

theorem step_processBatch {batch : Batch} {header : Option BatchHeader} {chain : ChainView}
    {outcome : BatchOutcome} (hb : staged batch)
    (h : ix.processBatch batch header chain = .ok (outcome, ix')) :
    Step ix.config staged ix.store ix'.store ∧ ix'.network = ix.network ∧ ix'.config = ix.config ∧
      ix'.closed = ix.closed := by
  obtain ⟨⟨outcome, store⟩, happly, h⟩ := bind_eq_ok_iff.1 h
  cases h
  exact ⟨.batch hb happly, rfl, rfl, rfl⟩

/-- Creating a wallet adds it to the open store. -/
theorem insert_of_createWallet {new : NewWallet} {tip : Option BlockRef} {chain : ChainView}
    {w : Wallet} (h : ix.createWallet new tip chain = .ok (w, ix')) :
    ix' = { ix with store := ix'.store } ∧ ∃ locator, BlockLocator.ofTip tip chain = .ok locator ∧
      ix.store.insertWallet new tip locator.hashes = .ok ix'.store := by
  obtain ⟨locator, hbuild, h⟩ := bind_eq_ok_iff.1 h
  obtain ⟨store, hinsert, h⟩ := bind_eq_ok_iff.1 h
  obtain ⟨wallet, -, h⟩ := bind_eq_ok_iff.1 h
  cases h
  exact ⟨rfl, locator, hbuild, hinsert⟩

/-- Creating an account adds it to a wallet of the open store and fills its pools. -/
theorem extend_of_createAccount {wallet name extendedKey : String} {index created : UInt32}
    {account : Account} (h : ix.createAccount wallet index name extendedKey created =
      .ok (account, ix')) :
    (ix'.network = ix.network ∧ ix'.config = ix.config ∧ ix'.closed = ix.closed) ∧
    (∃ w ∈ ix.store.wallets, w.id = account.wallet) ∧
    ∃ opened addresses, ix.store.insertAccount account = .ok opened ∧
      extendPools ix.config.topUpBuffer
        [⟨account.wallet, account.index, receivingKind⟩, ⟨account.wallet, account.index, changeKind⟩]
        opened = .ok (addresses, ix'.store) := by
  obtain ⟨key, -, h⟩ := bind_eq_ok_iff.1 h
  obtain ⟨_, -, h⟩ := bind_eq_ok_iff.1 h
  obtain ⟨owner, howner, h⟩ := bind_eq_ok_iff.1 h
  obtain ⟨opened, hinsert, h⟩ := bind_eq_ok_iff.1 h
  obtain ⟨⟨addresses, store⟩, hextend, h⟩ := bind_eq_ok_iff.1 h
  cases h
  obtain ⟨row, hrow, -, -, hid, -⟩ := row_of_wallet howner
  exact ⟨⟨rfl, rfl, rfl⟩, ⟨row, hrow, hid⟩, opened, addresses, hinsert, hextend⟩

/-- A removal works on one wallet of the open store. -/
theorem drop_of_removeUnconfirmed {name : String} {txid : Hash256}
    (h : ix.perform (.removeUnconfirmed name txid) = .ok ix') : ∃ w, ix.store.wallet name = .ok w ∧
      ix' = { ix with store := (ix.store.dropUnconfirmed w.id txid).2 } := by
  obtain ⟨answer, hanswer, rfl⟩ := map_eq_ok_iff.1 h
  obtain ⟨w, hw, hanswer⟩ := bind_eq_ok_iff.1 hanswer
  cases hanswer
  exact ⟨w, hw, rfl⟩

/-- A call opens a store, or takes a step on the open one. -/
theorem perform_cases {call : Call} (hb : ∀ b ∈ call.batch?, staged b)
    (h : ix.perform call = .ok ix') :
    (∃ network config, call = .reopen network config ∧ ix' = ix.reopen network config) ∨
      (Step ix.config staged ix.store ix'.store ∧ ix'.network = ix.network ∧
        ix'.config = ix.config ∧ ix'.closed = ix.closed) := by
  cases call with
  | reopen network config =>
    cases h
    exact .inl ⟨network, config, rfl, rfl⟩
  | createWallet new tip chain =>
    obtain ⟨⟨w, ix1⟩, hcall, rfl⟩ := map_eq_ok_iff.1 h
    obtain ⟨heq, locator, hbuild, hinsert⟩ := insert_of_createWallet hcall
    rw [heq]
    exact .inr ⟨.wallet hbuild hinsert, rfl, rfl, rfl⟩
  | createAccount wallet index name extendedKey created =>
    obtain ⟨⟨account, ix1⟩, hcall, rfl⟩ := map_eq_ok_iff.1 h
    obtain ⟨hframe, howner, opened, addresses, hinsert, hextend⟩ := extend_of_createAccount hcall
    exact .inr ⟨.account howner hinsert hextend, hframe⟩
  | processBatch batch header chain =>
    obtain ⟨⟨outcome, ix1⟩, hcall, rfl⟩ := map_eq_ok_iff.1 h
    exact .inr (step_processBatch (hb _ rfl) hcall)
  | processBlock placed chain =>
    obtain ⟨⟨outcome, ix1⟩, hcall, rfl⟩ := map_eq_ok_iff.1 h
    exact .inr (step_processBatch (hb _ rfl) hcall)
  | processBlocks blocks chain =>
    obtain ⟨⟨outcome, ix1⟩, hcall, rfl⟩ := map_eq_ok_iff.1 h
    unfold processBlocks at hcall
    split at hcall
    · cases hcall
    · cases hcall
      -- no blocks, no batch
      exact .inr ⟨.kept, rfl, rfl, rfl⟩
    · exact .inr (step_processBatch (hb _ rfl) hcall)
  | processTransaction tx time =>
    obtain ⟨⟨outcome, ix1⟩, hcall, rfl⟩ := map_eq_ok_iff.1 h
    exact .inr (step_processBatch (hb _ rfl) hcall)
  | rollback wallet target chain =>
    obtain ⟨⟨moved, ix1⟩, hcall, rfl⟩ := map_eq_ok_iff.1 h
    obtain ⟨w, hw, hcall⟩ := bind_eq_ok_iff.1 hcall
    obtain ⟨⟨moved, store⟩, hrollback, hcall⟩ := bind_eq_ok_iff.1 hcall
    cases hcall
    exact .inr ⟨step_rollback hw hrollback, rfl, rfl, rfl⟩
  | removeUnconfirmed wallet txid =>
    obtain ⟨⟨changed, ix1⟩, hcall, rfl⟩ := map_eq_ok_iff.1 h
    obtain ⟨w, hw, hcall⟩ := bind_eq_ok_iff.1 hcall
    cases hcall
    obtain ⟨row, hrow, -, -, hid, -⟩ := row_of_wallet hw
    have hstep : Step ix.config staged ix.store (ix.store.dropUnconfirmed row.id txid).2 :=
      .dropped hrow
    rw [hid] at hstep
    exact .inr ⟨hstep, rfl, rfl, rfl⟩

@[simp] theorem storeOf_network (ix : Indexer) : ix.storeOf ix.network = ix.store := by
  simp [storeOf]

/-- Reopening moves the stores about and changes none. -/
@[simp] theorem storeOf_reopen (ix : Indexer) (network : Network) (config : Config) :
    (ix.reopen network config).storeOf = ix.storeOf := by
  funext n
  unfold storeOf reopen
  dsimp only
  split
  · rename_i hn
    rw [hn]
  · rfl

/-- A call takes a step on the open store and changes no other. -/
theorem storeOf_perform {call : Call} (hb : ∀ b ∈ call.batch?, staged b)
    (h : ix.perform call = .ok ix') (network : Network) :
    ix'.storeOf network = ix.storeOf network ∨
      (ix.storeOf network = ix.store ∧ ix'.storeOf network = ix'.store ∧
        Step ix.config staged ix.store ix'.store) := by
  rcases perform_cases hb h with ⟨n, config, -, rfl⟩ | ⟨hstep, hnet, -, hclosed⟩
  · rw [storeOf_reopen]
    exact .inl rfl
  · by_cases hn : network = ix.network
    · right
      unfold storeOf
      rw [hnet, if_pos hn, if_pos hn]
      exact ⟨rfl, rfl, hstep⟩
    · left
      unfold storeOf
      rw [hnet, if_neg hn, if_neg hn, hclosed]

/-- What holds of empty stores and what every change keeps, between states that pass a test, holds in
every state of a history that passes it. -/
theorem History.store_induction {P Q : Store → Prop} {calls : List Call} {states : List Indexer}
    (hist : History calls states) (hb : ∀ c ∈ calls, ∀ b ∈ c.batch?, staged b)
    (hQ : ∀ ix ∈ states, Q ix.store) (empty : P Store.empty)
    (change : ∀ s s', Q s → Q s' → P s → Change staged s s' → P s') :
    ∀ ix ∈ states, ∀ network, P (ix.storeOf network) := by
  induction hist with
  | opened network config =>
    intro ix hix n
    rw [List.mem_singleton.1 hix]
    unfold storeOf
    split <;> exact empty
  | @called calls past ix ix' call before answer ih =>
    have hpast := ih (fun c hc => hb c (List.mem_cons_of_mem _ hc))
      (fun j hj => hQ j (List.mem_cons_of_mem _ hj))
    intro j hj n
    rcases List.mem_cons.1 hj with rfl | hj
    · -- only the store that was open is new
      have hix := hpast ix List.mem_cons_self n
      rcases storeOf_perform (hb call List.mem_cons_self) answer n with heq | ⟨heq, heq', hstep⟩
      · rw [heq]
        exact hix
      · rw [heq] at hix
        rw [heq']
        exact change _ _ (hQ ix (List.mem_cons_of_mem _ List.mem_cons_self))
          (hQ j List.mem_cons_self) hix (change_of_step hstep)
    · exact hpast j hj n

/-- What holds of empty stores and what every change keeps holds in every state of a history. -/
theorem History.store_invariant {P : Store → Prop} {calls : List Call} {states : List Indexer}
    (hist : History calls states) (empty : P Store.empty)
    (change : ∀ s s', P s → Change (fun _ => True) s s' → P s') :
    ∀ ix ∈ states, ∀ network, P (ix.storeOf network) :=
  @History.store_induction (fun _ => True) P (fun _ => True) calls states hist
    (fun _ _ _ _ => trivial) (fun _ _ => trivial) empty fun s s' _ _ => change s s'

/-- The state whose open store gives way to another, opened anew. -/
def reopenedWith (ix : Indexer) (s : Store) (config : Config) : Indexer :=
  { ix with store := s }.reopen ix.network config

/-- A call changes the open store alone, so that the store opened anew shows what it did. -/
theorem reopen_of_perform {call : Call} (hcall : ∀ network config, call ≠ .reopen network config)
    (h : ix.perform call = .ok ix') (config : Config) :
    ix'.reopen ix.network config = ix.reopenedWith ix'.store config := by
  have hcases := @perform_cases (fun _ => True) _ _ _ (fun _ _ => trivial) h
  rcases hcases with ⟨network, config, hreopen, -⟩ | ⟨-, hnet, -, hclosed⟩
  · exact absurd hreopen (hcall network config)
  · obtain ⟨network, config, store, watched, closed⟩ := ix'
    cases hnet
    cases hclosed
    rfl

/-- After a call, the store may be opened anew. -/
theorem History.reopened {calls : List Call} {past : List Indexer} {call : Call} {s : Store}
    (hist : History calls (ix :: past)) (hcall : ∀ network config, call ≠ .reopen network config)
    (h : (ix.perform call).map (·.store) = .ok s) (config : Config) :
    ∃ ix', History (.reopen ix.network config :: call :: calls)
      (ix.reopenedWith s config :: ix' :: ix :: past) ∧ ix'.store = s := by
  obtain ⟨ix', hperform, rfl⟩ := map_eq_ok_iff.1 h
  refine ⟨ix', (hist.called hperform).called ?_, rfl⟩
  rw [← reopen_of_perform hcall hperform]
  rfl

end Indexer

/-! ## A wallet to try statements on -/

namespace Sample

/-- The script that hexadecimal digits stand for. -/
def script (hex : String) : Script := (Bytes.ofHex? hex).getD []

def extendedKey : String :=
  "xpub661MyMwAqRbcFtXgS5sYJABqqG9YLmC4Q1Rdap9gSE8NqtwybGhePY2gZ29ESFjqJoCu1Rupje8YtGqsefD265" ++
    "TMg7usUDFdp6W1EGMcet8"

/-- The scripts of the first receiving address. -/
def receiving : DerivedScripts where
  toKey := script "2102756de182c5dd4b717ea87e693006da62dbb3cddaa4a5cad2ed1f5bbab755f0f5ac"
  toKeyHash := script "76a9140d1c9c02a7be9ba8b8842804feb961481ce6561b88ac"

/-- The scripts of the first change address. -/
def change : DerivedScripts where
  toKey := script "21029b393153a1ec68c7af3a98e88aecede3a409f27e698c090540098611c79e05b0ac"
  toKeyHash := script "76a914f09cb16010dc6d58dfafee3d3f9f027dc03be2c488ac"

def account : Account := ⟨1, 0, "main", extendedKey, 0⟩

/-- A buffer of a single address. -/
def config : Config := { topUpBuffer := 1 }

/-- No buffer at all. -/
def unbuffered : Config := { topUpBuffer := 0 }

/-- A wallet with an account, synced to a block at height zero. -/
def store : Store where
  wallets := [⟨1, "savings", some 0, Hash256.zero.bytes, Hash256.zero.bytes, true, "", "", 0⟩]
  accounts := [account]
  addresses := [⟨⟨⟨1, 0, 0⟩, 0⟩, receiving⟩, ⟨⟨⟨1, 0, 1⟩, 0⟩, change⟩]
  ledger := []
  payments := []

/-- The wallet without its account. -/
def walletOnly : Store := { Store.empty with wallets := store.wallets }

/-- The indexer after its wallet is created. -/
def created : Indexer := (Indexer.fresh .bitcoin config).reopenedWith walletOnly config

/-- The indexer after its account is created, under a configuration. -/
def opened (config' : Config) : Indexer := created.reopenedWith store config'

/-- The calls that lead there. -/
def calls (config' : Config) : List Call :=
  [.reopen .bitcoin config', .createAccount "savings" 0 "main" extendedKey 0,
    .reopen .bitcoin config,
    .createWallet ⟨"savings", "", "", true, 0⟩ (some ⟨0, Hash256.zero⟩) fun _ => none,
    .reopen .bitcoin config]

/-- A transaction that pays the first receiving address. -/
def pay : Transaction :=
  ⟨1, [⟨⟨Hash256.zero, 0⟩, [], 0⟩], [⟨5000, receiving.toKeyHash⟩], 0⟩

/-- A transaction that spends what was received and pays the first change address. -/
def spend : Transaction :=
  ⟨1, [⟨⟨pay.txid, 0⟩, [], 0⟩], [⟨3000, script "6a"⟩, ⟨1500, change.toKeyHash⟩], 0⟩

/-- The row of what was received. -/
def received (block : Option BlockRef) (time : UInt32) : LedgerRow where
  key := ⟨⟨⟨1, 0, 0⟩, 0⟩, receiving.toKeyHash, pay.txid.bytes, 0⟩
  deposit := ⟨receiving.toKeyHash, 5000, block.map (·.height), block.map (·.hash.bytes), time, false⟩
  spend := .unspent

theorem perform_createWallet : ((Indexer.fresh .bitcoin config).perform
    (.createWallet ⟨"savings", "", "", true, 0⟩ (some ⟨0, Hash256.zero⟩) fun _ => none)).map (·.store) =
      .ok walletOnly := by
  decide +kernel

theorem perform_createAccount : (created.perform
    (.createAccount "savings" 0 "main" extendedKey 0)).map (·.store) = .ok store := by
  decide +kernel

theorem history (config' : Config) : ∃ past,
    Indexer.History (calls config') (opened config' :: past) ∧
      ∀ ix ∈ past, ix.store.ledger = [] := by
  have hopened : Indexer.History [.reopen .bitcoin config] [Indexer.fresh .bitcoin config] :=
    .opened _ _
  obtain ⟨ix, hcreated, hix⟩ := hopened.reopened (by simp) perform_createWallet config
  obtain ⟨ix', hfilled, hix'⟩ :=
    Indexer.History.reopened hcreated (by simp) perform_createAccount config'
  refine ⟨_, hfilled, ?_⟩
  intro j hj
  simp only [List.mem_cons, List.not_mem_nil, or_false] at hj
  rcases hj with rfl | rfl | rfl | rfl
  · rw [hix']
    rfl
  · rfl
  · rw [hix]
    rfl
  · rfl

end Sample

end WalletLedger
