import WalletLedger.Proofs.Blocks
import WalletLedger.Proofs.Columns

/-!
# Nothing lies above the tip

Which wallets a batch extends is told by the hash of its parent alone, and a rollback compares heights
alone. Where hashes have heights and callers keep to them, the two agree: a wallet that a batch extends is
just below its first block, so that the tip stays the highest block that the ledger of the wallet names.

* `Call.Respects`: the calls whose blocks have the heights of their hashes.
* `Store.Levelled`: a wallet is at the height of its hash and its rows name no block above, the invariant.
* `Indexer.levelled_of_perform`: what a call keeps, the step lemma, and `Indexer.levelled_run`, the run
  lemma.
* `Indexer.nothing_above_tips`: what is read of this in every state.
* `Indexer.createAccount_withWallets`: an account is created alike whatever the wallets are synced to.
-/

namespace WalletLedger

/-! ## Heights of hashes -/

/-- A block has the height of its hash, and is one above its parent. -/
def PlacedBlock.Respects (H : Hash256 → Int) (placed : PlacedBlock) : Prop :=
  H placed.block.hash = placed.height.toNat ∧ H placed.block.hash = H placed.block.prev + 1

/-- The blocks that a call hands over have the heights of their hashes: the tip of a new wallet, the
blocks to apply and the chain to roll back to. A batch that the caller staged may name any block. -/
def Call.Respects (H : Hash256 → Int) : Call → Prop
  | .createWallet _ tip _ => ∀ ref ∈ tip, H ref.hash = ref.height.toNat
  | .processBatch _ _ _ => False
  | .processBlock placed _ => placed.Respects H
  | .processBlocks blocks _ => ∀ placed ∈ blocks, placed.Respects H
  | .rollback _ _ chain => ∀ height hash, chain height = some hash → H hash = height.toNat
  | _ => True

/-- The height that a wallet is synced to, one below the first block if it is synced to none. -/
def WalletRow.level (w : WalletRow) : Int :=
  match w.height with
  | none => -1
  | some height => height.toNat

/-- No block of a batch lies above the tip of its header, nor does the parent. -/
structure Batch.Under (H : Hash256 → Int) (b : Batch) (header : BatchHeader) : Prop where
  tip : H header.tip.hash = header.tip.height.toNat
  parent : H header.parent ≤ header.tip.height.toNat
  outputs : ∀ o ∈ b.outputs, ∀ block ∈ o.block, block.height.toNat ≤ header.tip.height.toNat
  spends : ∀ sp ∈ b.spends, ∀ block ∈ sp.block, block.height.toNat ≤ header.tip.height.toNat

variable {H : Hash256 → Int}

/-- Blocks that extend one another lie below the last one. -/
theorem height_le_getLast {first : PlacedBlock} {rest : List PlacedBlock}
    (hbreak : BatchHeader.firstBreak? (first :: rest) = none)
    (hheights : ∀ placed ∈ first :: rest, placed.Respects H) :
    ∀ placed ∈ first :: rest, placed.height.toNat ≤
      ((first :: rest).getLast (List.cons_ne_nil _ _)).height.toNat := by
  induction rest generalizing first with
  | nil =>
    intro placed hplaced
    rw [List.mem_singleton.1 hplaced]
    exact Nat.le_refl _
  | cons next rest ih =>
    unfold BatchHeader.firstBreak? at hbreak
    split at hbreak
    · rename_i hnext
      have hbelow := ih hbreak fun placed hplaced => hheights placed (List.mem_cons_of_mem _ hplaced)
      obtain ⟨hfirst, -⟩ := hheights first List.mem_cons_self
      obtain ⟨hhash, habove⟩ := hheights next (List.mem_cons_of_mem _ List.mem_cons_self)
      have hlast := hbelow next List.mem_cons_self
      rw [hnext.2] at habove
      rw [List.getLast_cons (List.cons_ne_nil _ _)]
      intro placed hplaced
      rcases List.mem_cons.1 hplaced with rfl | hplaced
      · omega
      · exact hbelow placed hplaced
    · cases hbreak

theorem Batch.under_ofBlocks {blocks : List PlacedBlock} {header : BatchHeader}
    (hheader : BatchHeader.ofBlocks blocks = .ok (some header))
    (hheights : ∀ placed ∈ blocks, placed.Respects H) : (ofBlocks blocks).Under H header := by
  unfold BatchHeader.ofBlocks at hheader
  split at hheader
  · cases hheader
  · rename_i first rest
    split at hheader
    · cases hheader
    · rename_i hbreak
      cases hheader
      have hbelow := height_le_getLast hbreak hheights
      have hlast := hheights _ (List.getLast_mem (List.cons_ne_nil first rest))
      have hfirst := hbelow first List.mem_cons_self
      obtain ⟨hhash, habove⟩ := hheights first List.mem_cons_self
      constructor
      case tip => exact hlast.1
      case parent =>
        dsimp only [PlacedBlock.ref]
        omega
      case outputs =>
        intro o ho block hblock
        obtain ⟨placed, hplaced, ho⟩ := mem_outputs_ofBlocks.1 ho
        rw [(isAt_ofBlock placed).1 o ho, Option.mem_some_iff] at hblock
        rw [← hblock]
        exact hbelow placed hplaced
      case spends =>
        intro sp hsp block hblock
        obtain ⟨placed, hplaced, hsp⟩ := mem_spends_ofBlocks.1 hsp
        rw [(isAt_ofBlock placed).2 sp hsp, Option.mem_some_iff] at hblock
        rw [← hblock]
        exact hbelow placed hplaced

theorem Batch.under_ofBlock {placed : PlacedBlock} (h : placed.Respects H) :
    (ofBlock placed).Under H ⟨placed.block.prev, placed.ref⟩ := by
  rw [← ofBlocks_singleton]
  refine under_ofBlocks rfl fun placed' hplaced => ?_
  rw [List.mem_singleton.1 hplaced]
  exact h

theorem Batch.unconfirmed_ofTransaction (tx : Transaction) (time : UInt32) :
    (ofTransaction tx time none).Unconfirmed := by
  constructor
  · intro o ho
    obtain ⟨⟨output, vout⟩, -, rfl⟩ := List.mem_map.1 ho
    rfl
  · intro sp hsp
    simp only [ofTransaction] at hsp
    split at hsp
    · cases hsp
    · obtain ⟨input, -, rfl⟩ := List.mem_map.1 hsp
      rfl

namespace Store

variable {s s' : Store}

/-! ## The invariant -/

/-- Every wallet is at the height of the hash it is synced to, and its rows name no block above. -/
structure Levelled (H : Hash256 → Int) (s : Store) : Prop where
  synced : ∀ w ∈ s.wallets, ∀ hash : Hash256, w.hash = hash.bytes → H hash = w.level
  named : ∀ w ∈ s.wallets, ∀ block, s.Named w.id block → (block.height.toNat : Int) ≤ w.level

theorem Levelled.empty : Store.empty.Levelled H where
  synced w hw := by cases hw
  named w hw := by cases hw

/-- A step that moves no wallet and names no block. -/
theorem Levelled.other (h : s.Levelled H) (hwallets : s'.wallets = s.wallets)
    (hnamed : ∀ wallet block, s'.Named wallet block → s.Named wallet block) : s'.Levelled H := by
  constructor
  · rw [hwallets]
    exact h.synced
  · rw [hwallets]
    intro w hw block hblock
    exact h.named w hw block (hnamed w.id block hblock)

/-- A wallet is at the height of its tip, if it has one. -/
theorem level_withTip (row : WalletRow) (tip : BlockRef) (hashes : List Hash256) :
    (row.withTip tip hashes).level = tip.height.toNat := rfl

/-- **A new wallet** is at its tip and has no rows. -/
theorem Levelled.insertWallet (h : s.Levelled H) (hs : s.WellFormed) (hzero : H Hash256.zero = -1)
    {new : NewWallet} {tip : Option BlockRef} {hashes : List Hash256}
    (htip : ∀ ref ∈ tip, H ref.hash = ref.height.toNat)
    (hinsert : s.insertWallet new tip hashes = .ok s') : s'.Levelled H := by
  unfold Store.insertWallet at hinsert
  split at hinsert
  · cases hinsert
  · cases hinsert
    constructor
    · intro w hw hash hhash
      rcases List.mem_append.1 hw with hw | hw
      · exact h.synced w hw hash hhash
      · rw [List.mem_singleton.1 hw] at hhash ⊢
        have hsame := Hash256.ext hhash
        rw [← hsame]
        cases tip with
        | none => exact hzero
        | some ref => exact htip ref (Option.mem_some_self ref)
    · intro w hw block hblock
      rcases List.mem_append.1 hw with hw | hw
      · exact h.named w hw block (hblock.congr rfl)
      · rw [List.mem_singleton.1 hw] at hblock
        exact absurd (hblock.congr rfl) (not_named_of_fresh hs)

/-- **A batch of blocks** moves the wallets that it extends to its tip, from the height of its parent. -/
theorem Levelled.applyBatch (h : s.Levelled H) (hs : s.WellFormed) {config : Config} {batch : Batch}
    {header : BatchHeader} {chain : ChainView} {outcome : BatchOutcome} (hunder : batch.Under H header)
    (happly : s.applyBatch config batch (some header) chain = .ok (outcome, s')) : s'.Levelled H := by
  obtain ⟨hashes, -, hwallets⟩ := moves_applyBatch hs happly
  have hmoved : ∀ w' ∈ s'.wallets, ∃ w ∈ s.wallets, w'.id = w.id ∧
      ((s.inScope (Scope.ofBatch config (some header)) w.id = true ∧ w.hash = header.parent.bytes ∧
          w' = w.withTip header.tip hashes) ∨
        (s.inScope (Scope.ofBatch config (some header)) w.id = false ∧ w' = w)) := by
    intro w' hw'
    rw [hwallets] at hw'
    obtain ⟨w, hw, rfl⟩ := List.mem_map.1 hw'
    refine ⟨w, hw, Scope.id_move _ _ _ w, ?_⟩
    rw [hs.inScope_eq hw]
    by_cases hcovers : (Scope.ofBatch config (some header)).covers w = true
    · exact .inl ⟨hcovers, hash_of_covers hcovers, Scope.move_of_covers hcovers⟩
    · exact .inr ⟨Bool.eq_false_iff.2 hcovers, Scope.move_of_not hcovers⟩
  constructor
  · intro w' hw' hash hhash
    obtain ⟨w, hw, -, ⟨-, -, rfl⟩ | ⟨-, rfl⟩⟩ := hmoved w' hw'
    · have hsame : header.tip.hash = hash := Hash256.ext hhash
      rw [← hsame, level_withTip]
      exact hunder.tip
    · exact h.synced w' hw hash hhash
  · intro w' hw' block hblock
    obtain ⟨w, hw, hid, hcases⟩ := hmoved w' hw'
    rw [hid] at hblock
    rcases hcases with ⟨-, hhash, rfl⟩ | ⟨hscope, rfl⟩
    · rw [level_withTip]
      rcases named_of_applyBatch happly hblock with hblock | ⟨-, hseen⟩
      · -- the wallet was at the height of the parent
        have hold := h.named w hw block hblock
        rw [← h.synced w hw header.parent hhash] at hold
        have hparent := hunder.parent
        omega
      · have hle : block.height.toNat ≤ header.tip.height.toNat := by
          rcases hseen with ⟨o, ho, hblock⟩ | ⟨sp, hsp, hblock⟩
          · exact hunder.outputs o ho block hblock
          · exact hunder.spends sp hsp block hblock
        omega
    · rcases named_of_applyBatch happly hblock with hblock | ⟨hsees, -⟩
      · exact h.named w' hw block hblock
      · rw [hscope] at hsees
        cases hsees

/-- **A batch that was seen in no block** moves no wallet and names no block. -/
theorem Levelled.applyUnconfirmed (h : s.Levelled H) {config : Config} {batch : Batch} {chain : ChainView}
    {outcome : BatchOutcome} (hpending : batch.Unconfirmed)
    (happly : s.applyBatch config batch none chain = .ok (outcome, s')) : s'.Levelled H := by
  refine h.other (wallets_applyBatch_none happly) fun wallet block hblock => ?_
  rcases named_of_applyBatch happly hblock with hblock | ⟨-, hseen⟩
  · exact hblock
  · obtain ⟨houtputs, hspends⟩ := hpending
    rcases hseen with ⟨o, ho, hseen⟩ | ⟨sp, hsp, hseen⟩
    · rw [houtputs o ho] at hseen
      cases hseen
    · rw [hspends sp hsp] at hseen
      cases hseen

/-- **A rollback** takes its wallet to a block of the chain and leaves no row above it. -/
theorem Levelled.rollback (h : s.Levelled H) {w : Wallet} {target : UInt32} {chain : ChainView}
    {moved : Bool} (hchain : ∀ height hash, chain height = some hash → H hash = height.toNat)
    (hrollback : s.rollback w target chain = .ok (moved, s')) : s'.Levelled H := by
  have hnamed : ∀ wallet block, s'.Named wallet block → s.Named wallet block ∧
      (moved = true → w.id = wallet → block.height ≤ target) :=
    fun wallet block => named_of_rollback hrollback
  unfold Store.rollback at hrollback
  split at hrollback
  · split at hrollback
    · cases hrollback
    · rename_i hash hat
      obtain ⟨locator, -, hrollback⟩ := bind_eq_ok_iff.1 hrollback
      cases hrollback
      have htarget := hchain target hash hat
      constructor
      · intro v' hv' hash' hhash
        obtain ⟨v, hv, rfl⟩ := List.mem_map.1 hv'
        split at hhash
        · rename_i hid
          have hsame : hash = hash' := Hash256.ext hhash
          rw [if_pos hid, ← hsame, level_withTip]
          exact htarget
        · rename_i hid
          rw [if_neg hid]
          exact h.synced v hv hash' hhash
      · intro v' hv' block hblock
        obtain ⟨v, hv, rfl⟩ := List.mem_map.1 hv'
        by_cases hid : v.id = w.id
        · rw [if_pos hid] at hblock ⊢
          have hle := (hnamed _ block hblock).2 rfl hid.symm
          rw [level_withTip]
          rw [UInt32.le_iff_toNat_le] at hle
          dsimp only
          omega
        · rw [if_neg hid] at hblock ⊢
          exact h.named v hv block (hnamed _ block hblock).1
  · cases hrollback
    exact h

end Store

/-! ## Calls and runs -/

namespace Indexer

open Store

variable {ix ix' : Indexer} {calls : List Call}

/-- **A call that keeps to the heights** of hashes keeps every wallet at the height of its hash and above
all that its rows name. -/
theorem levelled_of_perform (hs : ix.store.WellFormed) (h : ix.store.Levelled H)
    (hzero : H Hash256.zero = -1) {call : Call} (hcall : call.Respects H)
    (hopen : ∀ network config, call ≠ .reopen network config) (hperform : ix.perform call = .ok ix') :
    ix'.store.Levelled H := by
  cases call with
  | reopen network config => exact absurd rfl (hopen network config)
  | processBatch batch header chain => exact hcall.elim
  | createWallet new tip chain =>
    obtain ⟨answer, hanswer, rfl⟩ := map_eq_ok_iff.1 hperform
    obtain ⟨-, locator, -, hinsert⟩ := insert_of_createWallet hanswer
    exact h.insertWallet hs hzero hcall hinsert
  | createAccount wallet index name extendedKey created =>
    obtain ⟨answer, hanswer, rfl⟩ := map_eq_ok_iff.1 hperform
    obtain ⟨-, -, opened, addresses, hinsert, hextend⟩ := extend_of_createAccount hanswer
    rw [eq_of_insertAccount hinsert] at hextend
    rw [eq_of_extendPools hextend]
    exact h.other rfl fun wallet block hblock => hblock.congr rfl
  | processBlock placed chain =>
    rcases perform_batch rfl hperform with hstore | ⟨view, outcome, happly⟩
    · exact hstore ▸ h
    · exact h.applyBatch hs (Batch.under_ofBlock hcall) happly
  | processBlocks blocks chain =>
    obtain ⟨answer, hanswer, rfl⟩ := map_eq_ok_iff.1 hperform
    unfold processBlocks at hanswer
    split at hanswer
    · cases hanswer
    · cases hanswer
      exact h
    · rename_i header hheader
      obtain ⟨happly, -⟩ := applyBatch_of_processBatch hanswer
      exact h.applyBatch hs (Batch.under_ofBlocks hheader hcall) happly
  | processTransaction tx time =>
    rcases perform_batch rfl hperform with hstore | ⟨view, outcome, happly⟩
    · exact hstore ▸ h
    · exact h.applyUnconfirmed (Batch.unconfirmed_ofTransaction tx time) happly
  | rollback wallet target chain =>
    obtain ⟨answer, hanswer, rfl⟩ := map_eq_ok_iff.1 hperform
    obtain ⟨w, -, hanswer⟩ := bind_eq_ok_iff.1 hanswer
    obtain ⟨⟨moved, store⟩, hrollback, hanswer⟩ := bind_eq_ok_iff.1 hanswer
    cases hanswer
    exact h.rollback hcall hrollback
  | removeUnconfirmed wallet txid =>
    obtain ⟨w, -, rfl⟩ := drop_of_removeUnconfirmed hperform
    exact h.other rfl fun wallet block => named_of_dropUnconfirmed

/-- A call keeps this of the stores of all networks, whether it is answered or refused. -/
theorem levelled_after (hreach : ix.Reachable) (h : ∀ network, (ix.storeOf network).Levelled H)
    (hzero : H Hash256.zero = -1) {call : Call} (hcall : call.Respects H) (network : Network) :
    ((ix.after call).storeOf network).Levelled H := by
  rcases ix.after_answered_or_reopened call with ⟨hopen, hok⟩ | ⟨opened, config, hreopened⟩ | hsame
  · rcases @storeOf_perform (fun _ => True) _ _ _ (fun _ _ => trivial) hok network with
      hkept | ⟨hopened, hopened', -⟩
    · rw [hkept]
      exact h network
    · have hstore := h network
      rw [hopened] at hstore
      rw [hopened']
      exact levelled_of_perform hreach.wellFormed hstore hzero hcall hopen hok
  · rw [hreopened, storeOf_reopen]
    exact h network
  · rw [hsame]
    exact h network

/-- **So does a run.** -/
theorem levelled_afterAll (hreach : ix.Reachable) (h : ∀ network, (ix.storeOf network).Levelled H)
    (hzero : H Hash256.zero = -1) (hcalls : ∀ call ∈ calls, call.Respects H) (network : Network) :
    ((ix.afterAll calls).storeOf network).Levelled H := by
  induction calls generalizing ix with
  | nil => exact h network
  | cons call calls ih =>
    have hafter : (ix.afterAll [call]).Reachable := hreach.afterAll
    have hcall := hcalls call List.mem_cons_self
    refine ih hafter (levelled_after hreach h hzero hcall) fun later hlater => ?_
    exact hcalls later (List.mem_cons_of_mem _ hlater)

theorem levelled_run {network : Network} {config : Config} (hzero : H Hash256.zero = -1)
    (hcalls : ∀ call ∈ calls, call.Respects H) (other : Network) :
    ((run network config calls).storeOf other).Levelled H := by
  have hempty : ∀ other, ((fresh network config).storeOf other).Levelled H := by
    intro other
    unfold storeOf
    split <;> exact .empty
  exact levelled_afterAll (reachable_run network config []) hempty hzero hcalls other

end Indexer

/-! ## A first block

Nothing of what it takes to create an account depends on what the wallets are synced to. -/

namespace Store

theorem insertAccount_withWallets (s : Store) (wallets : List WalletRow) (account : Account) :
    { s with wallets := wallets }.insertAccount account =
      (s.insertAccount account).map fun t => { t with wallets := wallets } := by
  unfold insertAccount account?
  dsimp only
  split <;> rfl

theorem insertAddress_withWallets (s : Store) (wallets : List WalletRow) (a : Address) :
    { s with wallets := wallets }.insertAddress a =
      (s.insertAddress a).map fun t => { t with wallets := wallets } := by
  unfold insertAddress
  dsimp only
  split <;> rfl

theorem appendAddresses_withWallets (wallets : List WalletRow) (key : ExtendedKey) (g : AddressGroup)
    (index count : Nat) (s : Store) :
    appendAddresses key g index count { s with wallets := wallets } =
      (appendAddresses key g index count s).map fun answer =>
        (answer.1, { answer.2 with wallets := wallets }) := by
  induction count generalizing index s with
  | zero => rfl
  | succ count ih =>
    unfold appendAddresses
    dsimp only [bind, Except.bind]
    cases Result.ofDerivation (key.derive g.kind.toNat index) with
    | error e => rfl
    | ok scripts =>
      dsimp only
      rw [insertAddress_withWallets]
      cases s.insertAddress ⟨⟨g, UInt32.ofNat index⟩, scripts⟩ with
      | error e => rfl
      | ok m =>
        dsimp only [Except.map]
        rw [ih]
        cases appendAddresses key g (index + 1) count m <;> rfl

theorem extendPool_withWallets (s : Store) (wallets : List WalletRow) (g : AddressGroup)
    (buffer : UInt64) : { s with wallets := wallets }.extendPool g buffer =
      (s.extendPool g buffer).map fun answer => (answer.1, { answer.2 with wallets := wallets }) := by
  have hcount : ({ s with wallets := wallets } : Store).addressCount g = s.addressCount g := rfl
  have hunused : ({ s with wallets := wallets } : Store).unusedCount g = s.unusedCount g := rfl
  have haccount : ({ s with wallets := wallets } : Store).account? g.wallet g.account =
    s.account? g.wallet g.account := rfl
  unfold extendPool
  rw [hunused, haccount]
  split
  · rfl
  · cases s.account? g.wallet g.account with
    | none => rfl
    | some account =>
      dsimp only [createAddresses, bind, Except.bind]
      rw [hcount]
      cases Result.ofDerivation (ExtendedKey.ofText account.extendedKey) with
      | error e => rfl
      | ok key => exact appendAddresses_withWallets wallets key g _ _ s

theorem extendPools_withWallets (wallets : List WalletRow) (buffer : UInt64) (gs : List AddressGroup)
    (s : Store) : extendPools buffer gs { s with wallets := wallets } =
      (extendPools buffer gs s).map fun answer => (answer.1, { answer.2 with wallets := wallets }) := by
  induction gs generalizing s with
  | nil => rfl
  | cons g gs ih =>
    unfold extendPools
    dsimp only [bind, Except.bind]
    rw [extendPool_withWallets]
    cases s.extendPool g buffer with
    | error e => rfl
    | ok first =>
      dsimp only [Except.map]
      rw [ih]
      cases extendPools buffer gs first.2 <;> rfl

end Store

namespace Indexer

open Store

variable {ix ix' : Indexer}

/-- An account is created in the same way whatever its wallet is synced to. -/
theorem createAccount_withWallets {wallets : List WalletRow} {s : Store}
    {wallet name extendedKey : String} {index created : UInt32} {w w' : Wallet}
    (hnetwork : ix'.network = ix.network) (hconfig : ix'.config = ix.config)
    (hstore : ix'.store = { ix.store with wallets := wallets })
    (hw : ix.store.wallet wallet = .ok w) (hw' : ix'.store.wallet wallet = .ok w') (hid : w'.id = w.id)
    (h : (ix.perform (.createAccount wallet index name extendedKey created)).map (·.store) = .ok s) :
    (ix'.perform (.createAccount wallet index name extendedKey created)).map (·.store) =
      .ok { s with wallets := wallets } := by
  obtain ⟨ix₁, hperform, rfl⟩ := map_eq_ok_iff.1 h
  obtain ⟨answer, hanswer, rfl⟩ := map_eq_ok_iff.1 hperform
  obtain ⟨key, hkey, hanswer⟩ := bind_eq_ok_iff.1 hanswer
  obtain ⟨_, hcheck, hanswer⟩ := bind_eq_ok_iff.1 hanswer
  obtain ⟨owner, howner, hanswer⟩ := bind_eq_ok_iff.1 hanswer
  obtain ⟨opened, hinsert, hanswer⟩ := bind_eq_ok_iff.1 hanswer
  obtain ⟨⟨addresses, store⟩, hextend, hanswer⟩ := bind_eq_ok_iff.1 hanswer
  rw [hw] at howner
  cases howner
  cases hanswer
  have hinsert' : ix'.store.insertAccount ⟨w'.id, index, name, extendedKey, created⟩ =
      .ok { opened with wallets := wallets } := by
    rw [hstore, hid, insertAccount_withWallets, hinsert]
    rfl
  have hextend' : extendPools ix'.config.topUpBuffer
      [⟨w'.id, index, receivingKind⟩, ⟨w'.id, index, changeKind⟩] { opened with wallets := wallets } =
        .ok (addresses, { store with wallets := wallets }) := by
    rw [hconfig, hid, extendPools_withWallets, hextend]
    rfl
  have hcheck' : checkNetwork ix'.network key = .ok () := by
    rw [hnetwork]
    exact hcheck
  have hcreated : ix'.createAccount wallet index name extendedKey created =
      .ok (⟨w'.id, index, name, extendedKey, created⟩,
        { ix' with
          store := { store with wallets := wallets }
          watched := ix'.watched.extend (addresses.map (·.scripts.toKeyHash)) }) :=
    bind_eq_ok_iff.2 ⟨key, hkey, bind_eq_ok_iff.2 ⟨(), hcheck', bind_eq_ok_iff.2 ⟨w', hw',
      bind_eq_ok_iff.2 ⟨_, hinsert', bind_eq_ok_iff.2 ⟨_, hextend', rfl⟩⟩⟩⟩⟩
  exact map_eq_ok_iff.2 ⟨_, map_eq_ok_iff.2 ⟨_, hcreated, rfl⟩, rfl⟩

/-- A run whose first call is followed by opening the store anew. -/
theorem afterAll_reopened {call : Call} {s : Store}
    (hopen : ∀ network config, call ≠ .reopen network config)
    (h : (ix.perform call).map (·.store) = .ok s) (config : Config) (rest : List Call) :
    ix.afterAll (call :: .reopen ix.network config :: rest) = (ix.reopenedWith s config).afterAll rest := by
  obtain ⟨ix', hperform, rfl⟩ := map_eq_ok_iff.1 h
  rw [← reopen_of_perform hopen hperform, ← after_of_perform hperform]
  rfl

end Indexer

namespace Sample

/-- A wallet that has synced nothing yet. -/
def unsynced : List WalletRow := [⟨1, "savings", none, Hash256.zero.bytes, [], true, "", "", 0⟩]

/-- The first block of a chain, which receives. -/
def first : PlacedBlock := ⟨0, ⟨1, Hash256.zero, Hash256.zero, 9, 0, 0, [pay]⟩⟩

/-- The heights of the chain that begins with it. -/
def height (hash : Hash256) : Int := if hash = first.block.hash then 0 else -1

/-- A wallet is created and receives in the first block. -/
def mining : List Call :=
  [.createWallet ⟨"savings", "", "", true, 0⟩ none fun _ => none, .reopen .bitcoin config,
    .createAccount "savings" 0 "main" extendedKey 0, .reopen .bitcoin unbuffered,
    .processBlock first fun _ => some first.block.hash]

/-- The store with the block. -/
def mined : Store :=
  { store with
    wallets := [⟨1, "savings", some 0, first.block.hash.bytes, first.block.hash.bytes, true, "", "", 0⟩]
    ledger := [received (some first.ref) 9] }

theorem run_mining : (Indexer.run .bitcoin config mining).storeOf .bitcoin = mined := by
  have hwallet : ((Indexer.fresh .bitcoin config).perform
      (.createWallet ⟨"savings", "", "", true, 0⟩ none fun _ => none)).map (·.store) =
        .ok { walletOnly with wallets := unsynced } := by
    decide +kernel
  let created' := (Indexer.fresh .bitcoin config).reopenedWith { walletOnly with wallets := unsynced } config
  have hsynced : created.store.wallet "savings" =
      .ok ⟨1, "savings", some ⟨0, Hash256.zero⟩, [Hash256.zero], true, "", "", 0⟩ := by
    decide +kernel
  have hunsynced : created'.store.wallet "savings" = .ok ⟨1, "savings", none, [], true, "", "", 0⟩ := by
    decide +kernel
  have haccount : (created'.perform (.createAccount "savings" 0 "main" extendedKey 0)).map (·.store) =
      .ok { store with wallets := unsynced } :=
    @Indexer.createAccount_withWallets created created' unsynced store "savings" "main" extendedKey 0 0
      _ _ rfl rfl rfl hsynced hunsynced rfl perform_createAccount
  let opened' := created'.reopenedWith { store with wallets := unsynced } unbuffered
  have hblock : (opened'.perform (.processBlock first fun _ => some first.block.hash)).map (·.store) =
      .ok mined := by
    decide +kernel
  obtain ⟨ix', hperform, hstore⟩ := map_eq_ok_iff.1 hblock
  have hnetwork : ix'.network = .bitcoin := Indexer.network_of_perform (by simp) hperform
  have hrun : Indexer.run .bitcoin config mining = ix' := calc
    Indexer.run .bitcoin config mining
      = created'.afterAll (mining.drop 2) := Indexer.afterAll_reopened (by simp) hwallet config _
    _ = opened'.afterAll (mining.drop 4) := Indexer.afterAll_reopened (by simp) haccount unbuffered _
    _ = ix' := Indexer.after_of_perform hperform
  rw [hrun, ← hnetwork, Indexer.storeOf_network, hstore]

end Sample

/-! ## What is read -/

theorem WalletRow.Synced.exists_decode {row : WalletRow} (h : row.Synced) :
    ∃ w, row.decode = .ok w := by
  rcases h.eq_withTip with ⟨hheight, -, hlocator⟩ | ⟨tip, chain, locator, -, hrow⟩
  · unfold decode tip
    rw [hheight, hlocator]
    exact ⟨_, rfl⟩
  · rw [hrow]
    exact ⟨_, Store.decode_withTip row tip locator.hashes⟩

/-- Every row of a wallet names blocks up to the tip of the wallet, and none if it has no tip. -/
def Store.BelowTips (s : Store) : Prop :=
  ∀ row ∈ s.wallets, ∃ w, row.decode = .ok w ∧
    ∀ r ∈ s.ledger, r.key.address.group.wallet = row.id → ∃ e, r.decode = .ok e ∧
      (∀ tip, w.tip = some tip → ∀ block, e.Names block → block.height ≤ tip.height) ∧
      (w.tip = none → e.isConfirmed = false ∧ e.isSpendConfirmed = false)

theorem Store.Levelled.belowTips {s : Store} (h : s.Levelled H) (hs : s.WellFormed) :
    s.BelowTips := by
  intro row hrow
  obtain ⟨w, hw⟩ := (hs.synced row hrow).exists_decode
  have hheight := height_of_decode hw
  refine ⟨w, hw, fun r hr hown => ?_⟩
  obtain ⟨e, rfl⟩ := (hs.rows r hr).exists_entry
  have hbelow : ∀ block, e.Names block → (block.height.toNat : Int) ≤ row.level := by
    intro block hnames
    refine h.named row hrow block ⟨e.row, hr, beq_iff_eq.2 hown, ?_⟩
    exact LedgerRow.names_of_decode e.decode_row hnames
  refine ⟨e, e.decode_row, fun tip htip block hnames => ?_, fun htip => ?_⟩
  · have hle := hbelow block hnames
    rw [WalletRow.level, hheight, htip] at hle
    rw [UInt32.le_iff_toNat_le]
    exact Int.ofNat_le.1 hle
  · -- without a tip a named block would lie below the first one
    have hnone : ∀ block, ¬ e.Names block := by
      intro block hnames
      have hle := hbelow block hnames
      rw [WalletRow.level, hheight, htip] at hle
      dsimp only [Option.map_none] at hle
      omega
    constructor
    · rw [LedgerEntry.isConfirmed, Option.isSome_eq_false_iff, Option.isNone_iff_eq_none,
        Option.eq_none_iff_forall_ne_some]
      intro block hblock
      exact hnone block (.inl hblock)
    · rw [LedgerEntry.isSpendConfirmed, Option.any_eq_false]
      intro info hinfo
      rw [Option.isSome_eq_false_iff, Option.isNone_iff_eq_none, Option.eq_none_iff_forall_ne_some]
      intro block hblock
      exact hnone block (.inr ⟨info, hinfo, hblock⟩)

namespace Indexer

/-- **No ledger data lies above a wallet's tip.** If hashes have heights, that of no block being one below
the first, and all calls of a run keep to them, then in every store of the state after it a wallet with
a tip has no deposit and no spend above the tip, and a wallet without one has none in a block. -/
theorem nothing_above_tips {network : Network} {config : Config} {calls : List Call}
    (hzero : H Hash256.zero = -1) (hcalls : ∀ call ∈ calls, call.Respects H) (other : Network) :
    ((run network config calls).storeOf other).BelowTips := by
  obtain ⟨answered, past, hist⟩ := reachable_run network config calls
  exact (levelled_run hzero hcalls other).belowTips (wellFormed_of_history hist _ List.mem_cons_self other)

/-- A wallet that receives in the first block is synced to it, and its row names it. -/
theorem nothing_above_tips_mined : Sample.height Hash256.zero = -1 ∧
    (∀ call ∈ Sample.mining, call.Respects Sample.height) ∧
    (run .bitcoin Sample.config Sample.mining).storeOf .bitcoin = Sample.mined ∧
    Sample.mined.BelowTips ∧
    ∃ row ∈ Sample.mined.wallets, row.height = some 0 ∧
      ∃ r ∈ Sample.mined.ledger, r.key.address.group.wallet = row.id ∧ r.deposit.height = some 0 := by
  have hzero : Sample.height Hash256.zero = -1 := by
    decide +kernel
  have hfirst : Sample.first.Respects Sample.height := by
    constructor <;> decide +kernel
  have hcalls : ∀ call ∈ Sample.mining, call.Respects Sample.height := by
    simp only [Sample.mining, List.forall_mem_cons]
    exact ⟨by simp [Call.Respects], trivial, trivial, trivial, hfirst, by simp⟩
  have hbelow := @nothing_above_tips _ .bitcoin Sample.config _ hzero hcalls .bitcoin
  rw [Sample.run_mining] at hbelow
  exact ⟨hzero, hcalls, Sample.run_mining, hbelow, _, List.mem_cons_self, rfl, _, List.mem_cons_self,
    rfl, rfl⟩

end Indexer

end WalletLedger
