import WalletLedger.Proofs.Locator
import WalletLedger.Proofs.Undo

/-!
# Reorganizations

A wallet that followed one chain is asked whether a block of another chain lies on its history, and
is rolled back to that block if so. The answer rests on the highest block of the locator that is not
above the one asked for. Up to this block the ledger then holds blocks of the other chain alone;
what was recorded between it and the block asked for was not compared and may be stale.

* `Store.Named`: the blocks that a wallet's rows name, with a lemma for each way a store changes.
* `Indexer.Follows`: the states of a wallet that is advanced along a chain.
* `Store.OnChain`: what is known of such a wallet, the step lemmas being `Store.OnChain.advance` and
  `Store.OnChain.other`, the run lemma `Indexer.Follows.onChain`.
* `Indexer.rollback_leaves_chain_blocks`: what is left after the rollback.
-/

namespace WalletLedger

/-- A row names a block as that of its deposit or of its spend. -/
def LedgerRow.Names (r : LedgerRow) (block : BlockRef) : Prop :=
  (r.deposit.height = some block.height ∧ r.deposit.hash = some block.hash.bytes) ∨
    (r.spend.height = some block.height ∧ r.spend.hash = some block.hash.bytes)

/-- An entry names a block as that of its deposit or of its spend. -/
def LedgerEntry.Names (e : LedgerEntry) (block : BlockRef) : Prop :=
  e.block = some block ∨ ∃ info, e.spend = some info ∧ info.block = some block

theorem eq_of_readBlock {height : Option UInt32} {hash : Option Bytes} {block : BlockRef}
    (h : readBlock height hash = .ok (some block)) :
    height = some block.height ∧ hash = some block.hash.bytes := by
  unfold readBlock at h
  split at h
  · rename_i height hash
    obtain ⟨found, hfound, heq⟩ := map_eq_ok_iff.1 h
    cases heq
    exact ⟨rfl, congrArg some (readBlockHash_eq_ok_iff.1 hfound)⟩
  · cases h

/-- An entry names no block that its row does not name. -/
theorem LedgerRow.names_of_decode {r : LedgerRow} {e : LedgerEntry} {block : BlockRef}
    (h : r.decode = .ok e) (hnames : e.Names block) : r.Names block := by
  obtain ⟨spend, hspend, h⟩ := bind_eq_ok_iff.1 h
  obtain ⟨txid, -, h⟩ := bind_eq_ok_iff.1 h
  obtain ⟨deposit, hdeposit, h⟩ := bind_eq_ok_iff.1 h
  cases h
  rcases hnames with hnames | ⟨info, hinfo, hnames⟩
  · have hblock : deposit = some block := hnames
    rw [hblock] at hdeposit
    exact .inl (eq_of_readBlock hdeposit)
  · have hread : spend = some info := hinfo
    rw [hread] at hspend
    unfold SpendSide.decode at hspend
    split at hspend
    · cases hspend
    · obtain ⟨txid, -, hspend⟩ := bind_eq_ok_iff.1 hspend
      obtain ⟨found, hfound, hspend⟩ := bind_eq_ok_iff.1 hspend
      cases hspend
      have hblock : found = some block := hnames
      rw [hblock] at hfound
      exact .inr (eq_of_readBlock hfound)

theorem names_of_block {height : Option UInt32} {hash : Option Bytes} {seen : Option BlockRef}
    {block : BlockRef} (hheight : height = seen.map (·.height))
    (hhash : hash = seen.map (·.hash.bytes))
    (h : height = some block.height ∧ hash = some block.hash.bytes) : seen = some block := by
  obtain ⟨h₁, h₂⟩ := h
  rw [hheight] at h₁
  rw [hhash] at h₂
  cases seen with
  | none => cases h₁
  | some ref =>
    rw [Option.map_some, Option.some.injEq] at h₁ h₂
    obtain ⟨refHeight, refHash⟩ := ref
    obtain ⟨blockHeight, blockHash⟩ := block
    simp only at h₁ h₂
    rw [h₁, Hash256.ext h₂]

namespace Store

variable {s s' t : Store} {scope : Scope} {batch : Batch} {wallet : Int} {block : BlockRef}

/-- A row of a wallet names a block. -/
def Named (s : Store) (wallet : Int) (block : BlockRef) : Prop :=
  ∃ r ∈ s.ledger, r.isOf wallet = true ∧ r.Names block

/-- A batch concerns a wallet and was seen in a block. -/
def Sees (s : Store) (scope : Scope) (batch : Batch) (wallet : Int) (block : BlockRef) : Prop :=
  s.inScope scope wallet = true ∧
    ((∃ o ∈ batch.outputs, o.block = some block) ∨ ∃ sp ∈ batch.spends, sp.block = some block)

theorem Named.congr (hledger : s'.ledger = s.ledger) (h : s'.Named wallet block) :
    s.Named wallet block := by
  rw [Named, hledger] at h
  exact h

/-- Recorded deposits name blocks that were seen, and rows keep their spends. -/
theorem named_of_recordAll {ds : List Deposit}
    (hdue : ∀ d ∈ ds, s.IsDue scope batch.outputs d) (h : (recordAll ds s).2.Named wallet block) :
    s.Named wallet block ∨ s.Sees scope batch wallet block := by
  induction ds generalizing s with
  | nil => exact .inl h
  | cons d ds ih =>
    have hdue' : ∀ e ∈ ds, (s.record d).2.IsDue scope batch.outputs e := by
      intro e he
      refine (hdue e (List.mem_cons_of_mem _ he)).mono (wallets_record s d) fun a ha => ?_
      rw [addresses_record]
      exact ha
    rcases ih hdue' h with ⟨r, hr, hown, hnames⟩ | hsees
    · rcases mem_ledger_record hr with hr | ⟨hkey, hdeposit, hspend⟩
      · exact .inl ⟨r, hr, hown, hnames⟩
      · rcases hnames with hnames | hnames
        · -- the deposit side is that of the staged output
          obtain ⟨o, ho, a, -, -, hscope, rfl⟩ := hdue d List.mem_cons_self
          rw [LedgerRow.isOf, hkey, beq_iff_eq] at hown
          rw [hdeposit] at hnames
          refine .inr ⟨hown ▸ hscope, .inl ⟨o, ho, names_of_block rfl rfl hnames⟩⟩
        · rcases hspend with hspend | ⟨row, hrow, hk, hspend⟩
          · rw [hspend] at hnames
            cases hnames.1
          · rw [LedgerRow.isOf, hkey, ← hk] at hown
            exact .inl ⟨row, hrow, hown, .inr (hspend ▸ hnames)⟩
    · refine .inr ⟨?_, hsees.2⟩
      rw [← inScope_congr (wallets_record s d)]
      exact hsees.1

theorem named_of_rounds {buffer : UInt64} {pools : List AddressGroup} {applied : List LedgerKey}
    {found : DepositOutcome} (hrounds : Rounds scope buffer batch.outputs pools applied s found t)
    (h : t.Named wallet block) : s.Named wallet block ∨ s.Sees scope batch wallet block := by
  induction hrounds with
  | stop => exact .inl h
  | last hnew hextend =>
    refine named_of_recordAll (fun d hd => ?_) (h.congr (frame_round hextend).2.2.1)
    rw [hnew] at hd
    exact (isDue_of_mem_newDeposits hd).1
  | round hnew hextend _ _ ih =>
    obtain ⟨hwallets, -, hledger, -⟩ := frame_round hextend
    rcases ih h with h | hsees
    · refine named_of_recordAll (fun d hd => ?_) (h.congr hledger)
      rw [hnew] at hd
      exact (isDue_of_mem_newDeposits hd).1
    · refine .inr ⟨?_, hsees.2⟩
      rw [← inScope_congr hwallets]
      exact hsees.1

theorem named_of_matchSpends (h : (s.matchSpends scope batch).2.Named wallet block) :
    s.Named wallet block ∨ s.Sees scope batch wallet block := by
  obtain ⟨r', hr', hown, hnames⟩ := h
  obtain ⟨r, hr, rfl⟩ := List.mem_map.1 hr'
  split at hown
  · rename_i hhit
    rw [if_pos hhit] at hnames
    rw [LedgerRow.isOf, (r.key_spendBy _).1] at hown
    rcases hnames with hnames | hnames
    · rw [(r.key_spendBy _).2] at hnames
      exact .inl ⟨r, hr, hown, .inl hnames⟩
    · rcases spend_spendBy r batch.spends with hspend | ⟨sp, hsp, hspend⟩
      · rw [hspend] at hnames
        exact .inl ⟨r, hr, hown, .inr hnames⟩
      · rw [hspend] at hnames
        have hscope := inScope_of_isSpentBy hhit
        rw [beq_iff_eq.1 hown] at hscope
        exact .inr ⟨hscope, .inr ⟨sp, (List.mem_filter.1 hsp).1, names_of_block rfl rfl hnames⟩⟩
  · rename_i hhit
    rw [if_neg hhit] at hnames
    exact .inl ⟨r, hr, hown, hnames⟩

/-- **A batch** adds to the blocks that a wallet names only those that it was seen in, and only if the
wallet is in scope. -/
theorem named_of_applyBatch {config : Config} {header : Option BatchHeader} {chain : ChainView}
    {outcome : BatchOutcome} (happly : s.applyBatch config batch header chain = .ok (outcome, s'))
    (h : s'.Named wallet block) :
    s.Named wallet block ∨ s.Sees (Scope.ofBatch config header) batch wallet block := by
  obtain ⟨found, t, names, hrounds, hmoved⟩ := parts_of_applyBatch happly
  have hledger : s'.ledger = (t.matchSpends (Scope.ofBatch config header) batch).2.ledger := by
    rw [frame_advance hmoved]
  rcases named_of_matchSpends (h.congr hledger) with h | hsees
  · exact named_of_rounds hrounds h
  · refine .inr ⟨?_, hsees.2⟩
    rw [← inScope_congr (frame_rounds hrounds).1]
    exact hsees.1

/-- Of a row that is kept, a block is named by the deposit, or by a spend that is not cleared. -/
theorem names_of_clear {keep clear : LedgerRow → Bool} {ledger : List LedgerRow} {r' : LedgerRow}
    (hr' : r' ∈ (ledger.filter keep).map fun r => if clear r then { r with spend := .unspent } else r)
    (hnames : r'.Names block) : ∃ r ∈ ledger, keep r = true ∧ r'.key = r.key ∧
      ((r.deposit.height = some block.height ∧ r.deposit.hash = some block.hash.bytes) ∨
        (clear r = false ∧ r.spend.height = some block.height ∧
          r.spend.hash = some block.hash.bytes)) := by
  obtain ⟨r, hr, rfl⟩ := List.mem_map.1 hr'
  obtain ⟨hr, hkeep⟩ := List.mem_filter.1 hr
  refine ⟨r, hr, hkeep, ?_⟩
  cases hclear : clear r with
  | false =>
    rw [hclear] at hnames
    exact ⟨rfl, hnames.imp id fun h => ⟨rfl, h⟩⟩
  | true =>
    rw [hclear] at hnames
    refine ⟨rfl, .inl (hnames.resolve_right fun h => ?_)⟩
    cases h.1

/-- **A rollback** adds no block, and leaves its wallet none above the height. -/
theorem named_of_undoAbove {undone : Int} {bound : UInt32}
    (h : (s.undoAbove undone bound).Named wallet block) :
    s.Named wallet block ∧ (undone = wallet → block.height ≤ bound) := by
  obtain ⟨r', hr', hown, hnames⟩ := h
  obtain ⟨r, hr, hkeep, hkey, hside⟩ := names_of_clear hr' hnames
  rw [LedgerRow.isOf, hkey] at hown
  refine ⟨⟨r, hr, hown, hside.imp id (·.2)⟩, ?_⟩
  rintro rfl
  have hbelow : ∀ height, isAbove bound (some height) = false → height ≤ bound := by
    intro height habove
    simpa [isAbove] using habove
  simp only [hown, Bool.true_and, Bool.not_eq_true'] at hkeep hside
  rcases hside with ⟨hheight, -⟩ | ⟨hclear, hheight, -⟩
  · rw [hheight] at hkeep
    exact hbelow _ hkeep
  · rw [hheight] at hclear
    exact hbelow _ hclear

theorem named_of_rollback {w : Wallet} {target : UInt32} {chain : ChainView} {moved : Bool}
    (hrollback : s.rollback w target chain = .ok (moved, s')) (h : s'.Named wallet block) :
    s.Named wallet block ∧ (moved = true → w.id = wallet → block.height ≤ target) := by
  unfold rollback at hrollback
  split at hrollback
  · split at hrollback
    · cases hrollback
    · obtain ⟨locator, -, hrollback⟩ := bind_eq_ok_iff.1 hrollback
      cases hrollback
      obtain ⟨hnamed, hle⟩ := named_of_undoAbove (h.congr (s := s.undoAbove w.id target) rfl)
      exact ⟨hnamed, fun _ => hle⟩
  · cases hrollback
    exact ⟨h, (nomatch ·)⟩

theorem named_of_dropUnconfirmed {dropped : Int} {txid : Hash256}
    (h : (s.dropUnconfirmed dropped txid).2.Named wallet block) : s.Named wallet block := by
  obtain ⟨r', hr', hown, hnames⟩ := h
  obtain ⟨r, hr, -, hkey, hside⟩ := names_of_clear hr' hnames
  rw [LedgerRow.isOf, hkey] at hown
  exact ⟨r, hr, hown, hside.imp id (·.2)⟩

/-! ## A wallet on a chain -/

/-- A wallet is synced to a block of a chain, its locator holds blocks of the chain, and its ledger
names blocks of the chain alone, none above the tip. -/
structure OnChain (c : ChainView) (name : String) (row : WalletRow) (tip : BlockRef)
    (hashes : List Hash256) (s : Store) : Prop where
  found : s.walletRow? name = some (row.withTip tip hashes)
  synced : c tip.height = some tip.hash
  locator : BlockLocator.Describes c tip.height hashes
  named : ∀ block, s.Named row.id block → block.height ≤ tip.height ∧
    c block.height = some block.hash

variable {c : ChainView} {name : String} {row : WalletRow} {tip : BlockRef} {hashes : List Hash256}

/-- A step that leaves the wallet where it is and adds no block. -/
theorem OnChain.other (h : s.OnChain c name row tip hashes)
    (hfound : s'.walletRow? name = s.walletRow? name)
    (hnamed : ∀ block, s'.Named row.id block → s.Named row.id block) :
    s'.OnChain c name row tip hashes where
  found := hfound.trans h.found
  synced := h.synced
  locator := h.locator
  named := by intro block hblock; exact h.named block (hnamed block hblock)

/-- A batch that the wallet takes no part in, or that was seen in no block. -/
theorem OnChain.spare {config : Config} {header : Option BatchHeader} {chain : ChainView}
    {outcome : BatchOutcome} (h : s.OnChain c name row tip hashes) (hs : s.WellFormed)
    (hspared : (header = none ∧ batch.Unconfirmed) ∨
      (Scope.ofBatch config header).covers (row.withTip tip hashes) = false)
    (happly : s.applyBatch config batch header chain = .ok (outcome, s')) :
    s'.OnChain c name row tip hashes := by
  have hmem : row.withTip tip hashes ∈ s.wallets := List.mem_of_find?_eq_some h.found
  have hkept : s'.walletRow? name = s.walletRow? name := by
    cases header with
    | none => rw [walletRow?, wallets_applyBatch_none happly, walletRow?]
    | some header =>
      have hcovers : ¬ (Scope.ofBatch config (some header)).covers (row.withTip tip hashes) = true := by
        rcases hspared with ⟨hnone, -⟩ | hcovers
        · cases hnone
        · rw [hcovers]
          exact Bool.false_ne_true
      rw [walletRow?_of_not_covers (moves_applyBatch hs happly) h.found hcovers, h.found]
  refine h.other hkept fun block hblock => ?_
  rcases named_of_applyBatch happly hblock with hnamed | ⟨hscope, hseen⟩
  · exact hnamed
  · rcases hspared with ⟨-, houtputs, hspends⟩ | hcovers
    · rcases hseen with ⟨o, ho, hblock⟩ | ⟨sp, hsp, hblock⟩
      · rw [houtputs o ho] at hblock
        cases hblock
      · rw [hspends sp hsp] at hblock
        cases hblock
    · have hid : s.inScope (Scope.ofBatch config header) (row.withTip tip hashes).id = false := by
        rw [hs.inScope_eq hmem, hcovers]
      rw [WalletRow.withTip] at hid
      rw [hid] at hscope
      cases hscope

/-- **A block of the chain** takes the wallet along, if the wallet takes part. -/
theorem OnChain.advance {config : Config} {placed : PlacedBlock} {view : ChainView}
    {outcome : BatchOutcome} (h : s.OnChain c name row tip hashes) (hs : s.WellFormed)
    (hview : view.Within c)
    (hat : c placed.height = some placed.block.hash) (hheight : tip.height ≤ placed.height)
    (hcovers : (Scope.ofBatch config (some ⟨placed.block.prev, placed.ref⟩)).covers
      (row.withTip tip hashes) = true)
    (happly : s.applyBatch config (Batch.ofBlock placed) (some ⟨placed.block.prev, placed.ref⟩) view =
      .ok (outcome, s')) :
    ∃ locator, s'.OnChain c name row placed.ref locator := by
  obtain ⟨locator, hbuild, hfound⟩ :=
    walletRow?_of_covers (moves_applyBatch hs happly) h.found hcovers
  refine ⟨locator.hashes, hfound, hat, ?_, fun block hblock => ?_⟩
  · exact BlockLocator.describes_of_build hat hview hbuild
  · rcases named_of_applyBatch happly hblock with hnamed | ⟨-, hseen⟩
    · obtain ⟨hle, hc⟩ := h.named block hnamed
      exact ⟨UInt32.le_trans hle hheight, hc⟩
    · -- everything in the batch was seen in the block
      have hsame : some block = some placed.ref := by
        obtain ⟨houtputs, hspends⟩ := Batch.isAt_ofBlock placed
        rcases hseen with ⟨o, ho, hblock⟩ | ⟨sp, hsp, hblock⟩
        · exact hblock.symm.trans (houtputs o ho)
        · exact hblock.symm.trans (hspends sp hsp)
      cases hsame
      exact ⟨UInt32.le_refl _, hat⟩

/-- A wallet that was just created has no rows. -/
theorem not_named_of_fresh (hs : s.WellFormed) : ¬ s.Named (s.wallets.length + 1) block := by
  rintro ⟨r, hr, hown, -⟩
  obtain ⟨a, ha, haddress, -⟩ := hs.row_address r hr
  obtain ⟨w, hw, hid⟩ := hs.exists_wallet ha
  have hmem : w.id ∈ s.wallets.map (·.id) := List.mem_map_of_mem hw
  rw [hs.wallet_ids] at hmem
  obtain ⟨i, hi, hiw⟩ := List.mem_map.1 hmem
  have hlt := List.mem_range.1 hi
  rw [LedgerRow.isOf, beq_iff_eq, ← haddress, ← hid] at hown
  omega

/-- A wallet that is created at a block of a chain is on the chain. -/
theorem onChain_insertWallet (hs : s.WellFormed) {new : NewWallet} {view : ChainView}
    {locator : BlockLocator} (hview : view.Within c) (hat : c tip.height = some tip.hash)
    (hbuild : BlockLocator.build tip view = .ok locator)
    (hinsert : s.insertWallet new (some tip) locator.hashes = .ok s') :
    ∃ row, s'.OnChain c new.name row tip locator.hashes := by
  unfold insertWallet at hinsert
  split at hinsert
  · cases hinsert
  · rename_i hnone
    cases hinsert
    refine ⟨⟨s.wallets.length + 1, new.name, some tip.height, tip.hash.bytes,
      BlockLocator.encode locator.hashes, new.fromExtendedKey, new.seed, new.chainCode, new.created⟩,
      ?_, hat, BlockLocator.describes_of_build hat hview hbuild, fun block hblock => ?_⟩
    · have habsent : s.wallets.find? (·.name == new.name) = none := by simpa [walletRow?] using hnone
      rw [walletRow?, List.find?_append, habsent, Option.none_or, List.find?_cons_of_pos (by simp)]
      rfl
    · exact absurd (hblock.congr rfl) (not_named_of_fresh hs)

theorem walletRow?_insertWallet {new : NewWallet} {new_tip : Option BlockRef} {row : WalletRow}
    (hinsert : s.insertWallet new new_tip hashes = .ok s') (h : s.walletRow? name = some row) :
    s'.walletRow? name = some row ∧ s'.ledger = s.ledger := by
  unfold insertWallet at hinsert
  split at hinsert
  · cases hinsert
  · cases hinsert
    rw [walletRow?] at h
    rw [walletRow?, List.find?_append, h]
    exact ⟨rfl, rfl⟩

end Store

/-! ## Following a chain -/

/-- The header under which a call applies its batch. -/
def Call.header? : Call → Option BatchHeader
  | .processBatch _ header _ => header
  | .processBlock placed _ => some ⟨placed.block.prev, placed.ref⟩
  | .processBlocks blocks _ =>
    match BatchHeader.ofBlocks blocks with
    | .ok header => header
    | .error _ => none
  | _ => none

namespace Indexer

open Store

variable {ix ix' : Indexer} {c d : ChainView} {name : String} {row : WalletRow} {tip : BlockRef}
variable {hashes : List Hash256}

/-- A call that is not about a wallet: its batch extends another block or was seen in none, it does not
roll the wallet back, and it opens no other network. -/
structure Spares (ix : Indexer) (name : String) (call : Call) : Prop where
  batch : ∀ b ∈ call.batch?, (call.header? = none ∧ b.Unconfirmed) ∨
    ∃ header, call.header? = some header ∧
      ∀ w, ix.store.wallet name = .ok w → w.syncedHash ≠ header.parent
  rollback : ∀ target chain, call ≠ .rollback name target chain
  reopen : ∀ network config, call = .reopen network config → network = ix.network

/-- A wallet is created at a block of a chain and is then handed blocks of the chain at the height
after its own, each with a view of a part of the chain. Other calls may come between. -/
inductive Follows (c : ChainView) (name : String) : Indexer → Prop
  | created {ix ix' : Indexer} {new : NewWallet} {tip : BlockRef} {view : ChainView}
      (reach : ix.Reachable) (within : view.Within c) (block : c tip.height = some tip.hash)
      (named : new.name = name) (call : ix.perform (.createWallet new (some tip) view) = .ok ix') :
      Follows c name ix'
  | advanced {ix ix' : Indexer} {w : Wallet} {tip : BlockRef} {placed : PlacedBlock}
      {view : ChainView} (before : Follows c name ix) (within : view.Within c)
      (block : c placed.height = some placed.block.hash) (wallet : ix.store.wallet name = .ok w)
      (synced : w.tip = some tip) (next : placed.height.toNat = tip.height.toNat + 1)
      (call : ix.perform (.processBlock placed view) = .ok ix') : Follows c name ix'
  | spared {ix ix' : Indexer} {call : Call} (before : Follows c name ix)
      (spares : ix.Spares name call) (answer : ix.perform call = .ok ix') : Follows c name ix'

/-- A call that stages a batch applies it, unless it has no blocks to stage. -/
theorem perform_batch {call : Call} {b : Batch} (hb : b ∈ call.batch?)
    (h : ix.perform call = .ok ix') : ix'.store = ix.store ∨ ∃ chain outcome,
      ix.store.applyBatch ix.config b call.header? chain = .ok (outcome, ix'.store) := by
  cases call with
  | processBatch batch header chain =>
    cases hb
    obtain ⟨answer, hanswer, rfl⟩ := map_eq_ok_iff.1 h
    exact .inr ⟨chain, answer.1, (applyBatch_of_processBatch hanswer).1⟩
  | processBlock placed chain =>
    cases hb
    obtain ⟨answer, hanswer, rfl⟩ := map_eq_ok_iff.1 h
    exact .inr ⟨chain, answer.1, (applyBatch_of_processBatch hanswer).1⟩
  | processBlocks blocks chain =>
    cases hb
    obtain ⟨answer, hanswer, rfl⟩ := map_eq_ok_iff.1 h
    unfold processBlocks at hanswer
    split at hanswer
    · cases hanswer
    · cases hanswer
      exact .inl rfl
    · rename_i header hheader
      have hcall : (Call.processBlocks blocks chain).header? = some header := by
        rw [Call.header?, hheader]
      rw [hcall]
      exact .inr ⟨_, answer.1, (applyBatch_of_processBatch hanswer).1⟩
  | processTransaction tx time =>
    cases hb
    obtain ⟨answer, hanswer, rfl⟩ := map_eq_ok_iff.1 h
    exact .inr ⟨_, answer.1, (applyBatch_of_processBatch hanswer).1⟩
  | _ => cases hb

/-- A wallet on a chain is read, with its tip and its locator. -/
theorem onChain_wallet {s : Store} (h : s.OnChain c name row tip hashes) :
    s.wallet name = .ok ⟨row.id, row.name, some tip, hashes, row.fromExtendedKey, row.seed,
      row.chainCode, row.created⟩ :=
  (wallet_of_walletRow? h.found).trans (decode_withTip row tip hashes)

/-- A block is taken to lie on the history of such a wallet if the chains agree at the heights of the
locator up to it. -/
theorem containsBlock_of_onChain (h : ix.store.OnChain c name row tip hashes) {d : ChainView}
    (hlink : c.HashLinked d) {height : UInt32} {hash : Hash256} (hle : height ≤ tip.height)
    (hd : d height = some hash) (hdef : ∀ below ≤ height, (d below).isSome = true)
    (hagree : ∀ g ∈ locatorHeights tip.height, g ≤ height → d g = c g) :
    ix.containsBlock name (some ⟨height, hash⟩) d = .ok true :=
  bind_eq_ok_iff.2 ⟨_, onChain_wallet h,
    (Wallet.contains_iff rfl h.synced h.locator hlink hle hd hdef).2 hagree⟩

/-- **A call that spares a wallet** leaves it on its chain. -/
theorem onChain_of_spares (hs : ix.store.WellFormed) (h : ix.store.OnChain c name row tip hashes)
    {call : Call} (hspares : ix.Spares name call) (hcall : ix.perform call = .ok ix') :
    ix'.store.OnChain c name row tip hashes := by
  cases hb : call.batch? with
  | some b =>
    rcases perform_batch (Option.mem_def.2 hb) hcall with hstore | ⟨chain, outcome, happly⟩
    · exact hstore ▸ h
    · refine h.spare hs ((hspares.batch b (Option.mem_def.2 hb)).imp id ?_) happly
      rintro ⟨header, hheader, hparent⟩
      have hne := hparent _ (onChain_wallet h)
      -- the header asks for another tip
      have hbytes : (header.parent.bytes == tip.hash.bytes) = false := by
        rw [beq_eq_false_iff_ne]
        intro hsame
        exact hne (Hash256.ext hsame).symm
      simp only [Scope.covers, Scope.ofBatch, hheader, Option.map_some, Option.all_some,
        WalletRow.withTip, hbytes, Bool.and_false]
  | none =>
    cases call with
    | createWallet new new_tip view =>
      obtain ⟨answer, hanswer, rfl⟩ := map_eq_ok_iff.1 hcall
      obtain ⟨-, locator, -, hinsert⟩ := insert_of_createWallet hanswer
      obtain ⟨hfound, hledger⟩ := walletRow?_insertWallet hinsert h.found
      exact h.other (hfound.trans h.found.symm) fun block hblock => hblock.congr hledger
    | createAccount wallet index accountName extendedKey created =>
      obtain ⟨answer, hanswer, rfl⟩ := map_eq_ok_iff.1 hcall
      obtain ⟨-, -, opened, addresses, hinsert, hextend⟩ := extend_of_createAccount hanswer
      rw [eq_of_insertAccount hinsert] at hextend
      rw [eq_of_extendPools hextend]
      exact h.other rfl fun block hblock => hblock.congr rfl
    | rollback wallet target chain =>
      have hne : name ≠ wallet := by
        rintro rfl
        exact hspares.rollback target chain rfl
      obtain ⟨w, -, hundone⟩ := undone_of_perform hs rfl hcall
      obtain ⟨answer, hanswer, rfl⟩ := map_eq_ok_iff.1 hcall
      obtain ⟨v, -, hanswer⟩ := bind_eq_ok_iff.1 hanswer
      obtain ⟨⟨moved, store⟩, hrollback, hanswer⟩ := bind_eq_ok_iff.1 hanswer
      cases hanswer
      exact h.other (hundone.wallets name hne) fun block hblock =>
        (named_of_rollback hrollback hblock).1
    | removeUnconfirmed wallet txid =>
      obtain ⟨answer, hanswer, rfl⟩ := map_eq_ok_iff.1 hcall
      obtain ⟨w, -, hanswer⟩ := bind_eq_ok_iff.1 hanswer
      cases hanswer
      exact h.other rfl fun block hblock => named_of_dropUnconfirmed hblock
    | reopen network config =>
      cases hcall
      have hnetwork := hspares.reopen network config rfl
      have hstore : (ix.reopen network config).store = ix.store := if_pos hnetwork
      exact hstore.symm ▸ h
    | _ => cases hb

/-- Opening the same network anew spares every wallet. -/
theorem Spares.reopened {network : Network} (h : network = ix.network) (config : Config) :
    ix.Spares name (.reopen network config) where
  batch := by intro b hb; cases hb
  rollback := by intro target chain h; cases h
  reopen := by
    intro network' config' heq
    cases heq
    exact h

/-- The call that led to a state, and the state before it. -/
theorem History.previous {call earlier : Call} {calls : List Call} {past : List Indexer}
    (hist : History (call :: earlier :: calls) (ix' :: past)) :
    ∃ ix past', History (earlier :: calls) (ix :: past') ∧ ix.perform call = .ok ix' := by
  cases hist with
  | called before answer => exact ⟨_, _, before, answer⟩

theorem network_of_perform {call : Call} (hcall : ∀ network config, call ≠ .reopen network config)
    (h : ix.perform call = .ok ix') : ix'.network = ix.network := by
  have hcases := @perform_cases (fun _ => True) _ _ _ (fun _ _ => trivial) h
  rcases hcases with ⟨network, config, hreopen, -⟩ | ⟨-, hnet, -⟩
  · exact absurd hreopen (hcall network config)
  · exact hnet

theorem Follows.reachable (h : ix.Follows c name) : ix.Reachable := by
  induction h with
  | created reach _ _ _ call => exact reach.perform call
  | advanced _ _ _ _ _ _ call ih => exact ih.perform call
  | spared _ _ answer ih => exact ih.perform answer

/-- **A wallet that follows a chain** is on it, after every run. -/
theorem Follows.onChain (h : ix.Follows c name) :
    ∃ row tip hashes, ix.store.OnChain c name row tip hashes := by
  induction h with
  | @created ix ix' new tip view reach within block named call =>
    obtain ⟨answer, hanswer, rfl⟩ := map_eq_ok_iff.1 call
    obtain ⟨-, locator, hbuild, hinsert⟩ := insert_of_createWallet hanswer
    obtain ⟨row, hrow⟩ := onChain_insertWallet reach.wellFormed within block hbuild hinsert
    exact ⟨row, tip, locator.hashes, named ▸ hrow⟩
  | @advanced ix ix' w tip placed view before within block wallet synced next call ih =>
    obtain ⟨row, tip', hashes, hchain⟩ := ih
    -- the tip of the wallet is the one that its row holds
    have hread := onChain_wallet hchain
    rw [wallet] at hread
    cases hread
    cases synced
    obtain ⟨answer, hanswer, rfl⟩ := map_eq_ok_iff.1 call
    obtain ⟨⟨outcome, store⟩, happly, hanswer⟩ := bind_eq_ok_iff.1 hanswer
    cases hanswer
    have hheight : tip.height ≤ placed.height := by
      rw [UInt32.le_iff_toNat_le]
      omega
    cases hcovers : (Scope.ofBatch ix.config (some ⟨placed.block.prev, placed.ref⟩)).covers
        (row.withTip tip hashes) with
    | true =>
      obtain ⟨locator, h⟩ := hchain.advance before.reachable.wellFormed within block hheight hcovers happly
      exact ⟨row, placed.ref, locator, h⟩
    | false => exact ⟨row, tip, hashes, hchain.spare before.reachable.wellFormed (.inr hcovers) happly⟩
  | spared before spares answer ih =>
    obtain ⟨row, tip, hashes, hchain⟩ := ih
    exact ⟨row, tip, hashes,
      onChain_of_spares before.reachable.wellFormed hchain spares answer⟩

/-- A block that extends the tip takes a wallet along that no mode leaves out. -/
theorem Follows.processBlock {placed : PlacedBlock} {outcome : BatchOutcome} (h : ix.Follows c name)
    (hmode : ix.config.mode = .allWallets) (hchain : ix.store.OnChain c name row tip hashes)
    (hat : c placed.height = some placed.block.hash) (hprev : placed.block.prev = tip.hash)
    (hnext : placed.height.toNat = tip.height.toNat + 1)
    (hblock : ix.processBlock placed c = .ok (outcome, ix')) :
    ix'.Follows c name ∧ ix'.config = ix.config ∧
      ∃ locator, ix'.store.OnChain c name row placed.ref locator := by
  have hperform : ix.perform (.processBlock placed c) = .ok ix' := by
    rw [perform, hblock]
    rfl
  have hwithin : c.Within c := fun _ _ h => h
  obtain ⟨answer, happly, hblock⟩ := bind_eq_ok_iff.1 hblock
  cases hblock
  have hcovers : (Scope.ofBatch ix.config (some ⟨placed.block.prev, placed.ref⟩)).covers
      (row.withTip tip hashes) = true := by
    simp only [Scope.covers, Scope.ofBatch, hmode, BatchMode.walletName, Option.all_none,
      Option.map_some, Option.all_some, hprev, WalletRow.withTip, beq_self_eq_true, Bool.and_self]
  have hheight : tip.height ≤ placed.height := by
    rw [UInt32.le_iff_toNat_le]
    omega
  exact ⟨h.advanced hwithin hat (onChain_wallet hchain) rfl hnext hperform, rfl,
    hchain.advance h.reachable.wellFormed hwithin hat hheight hcovers happly⟩

/-- A rollback to a block that a chain has at its height succeeds, and keeps what lies below. -/
theorem named_after_rollback {s : Store} (h : s.OnChain c name row tip hashes) {w : Wallet}
    (hw : s.wallet name = .ok w) {height : UInt32} {hash : Hash256} (hd : d height = some hash)
    (hle : height ≤ tip.height) (hdef : ∀ below ≤ height, (d below).isSome = true) :
    ∃ moved s', s.rollback w height d = .ok (moved, s') ∧
      (∃ w', s'.wallet name = .ok w' ∧ w'.id = row.id) ∧
      ∀ block, s'.Named row.id block → s.Named row.id block ∧ block.height ≤ height := by
  rw [onChain_wallet h] at hw
  cases hw
  rcases UInt32.le_iff_lt_or_eq.1 hle with hlt | heq
  · obtain ⟨locator, hbuild⟩ : ∃ locator, BlockLocator.build ⟨height, hash⟩ d = .ok locator :=
      BlockLocator.exists_build hd hdef
    have habove : (some tip).any (height < ·.height) = true := by simpa using hlt
    have hrollback : s.rollback ⟨row.id, row.name, some tip, hashes, row.fromExtendedKey, row.seed,
        row.chainCode, row.created⟩ height d = .ok (true,
          (s.undoAbove row.id height).setTip row.id ⟨height, hash⟩ locator.hashes) :=
      rollback_of_above habove hd hbuild
    refine ⟨true, _, hrollback, ?_, fun block hblock => ?_⟩
    · have hundone : (s.undoAbove row.id height).walletRow? name = some (row.withTip tip hashes) :=
        h.found
      have hfound : ((s.undoAbove row.id height).setTip row.id ⟨height, hash⟩ locator.hashes).walletRow?
          name = some ((row.withTip tip hashes).withTip ⟨height, hash⟩ locator.hashes) := by
        rw [walletRow?_setTip, hundone, Option.map_some]
        exact congrArg some (if_pos rfl)
      refine ⟨_, (wallet_of_walletRow? hfound).trans (decode_withTip _ _ _), rfl⟩
    · obtain ⟨hnamed, hbound⟩ := named_of_rollback hrollback hblock
      exact ⟨hnamed, hbound rfl rfl⟩
  · have hany : (some tip).any (height < ·.height) = false := by simp [heq]
    refine ⟨false, s, rollback_of_not_above d hany, ⟨_, onChain_wallet h, rfl⟩, fun block hblock => ?_⟩
    exact ⟨hblock, heq ▸ (h.named block hblock).1⟩

end Indexer

/-! ## A chain to fork from -/

/-- A block without transactions stages nothing. -/
theorem Batch.ofBlock_of_empty {placed : PlacedBlock} (h : placed.block.transactions = []) :
    ofBlock placed = empty := by
  unfold ofBlock
  rw [h]
  rfl

/-- Nothing is found in an empty batch, and nothing is spent by it. -/
theorem Store.applyBatch_empty (s : Store) (config : Config) (header : BatchHeader)
    {chain : ChainView} {locator : BlockLocator}
    (hbuild : BlockLocator.build header.tip chain = .ok locator) :
    ∃ outcome s', s.applyBatch config Batch.empty (some header) chain = .ok (outcome, s') ∧
      s'.ledger = s.ledger := by
  have hdeposits : s.matchDeposits (Scope.ofBatch config (some header)) config.topUpBuffer [] s.pools
      [] = .ok (⟨0, 1, []⟩, s) := by
    rw [matchDeposits]
    rfl
  have hspends : (s.matchSpends (Scope.ofBatch config (some header)) Batch.empty).2.ledger =
      s.ledger := by
    refine map_eq_self fun r _ => if_neg fun hhit => ?_
    have hnone := (hit_of_isSpentBy hhit).2
    cases hnone
  obtain ⟨names, moved, hmoved⟩ : ∃ names moved,
      (s.matchSpends (Scope.ofBatch config (some header)) Batch.empty).2.advance
        (Scope.ofBatch config (some header)) (some header) chain = .ok (names, moved) := by
    unfold advance
    dsimp only
    split
    · exact ⟨_, _, rfl⟩
    · exact ⟨_, _, bind_eq_ok_iff.2 ⟨locator, hbuild, rfl⟩⟩
  refine ⟨_, moved, bind_eq_ok_iff.2 ⟨_, hdeposits, bind_eq_ok_iff.2 ⟨_, hmoved, rfl⟩⟩, ?_⟩
  rw [frame_advance hmoved]
  exact hspends

namespace Sample

/-- The blocks above height zero: the one that receives, then empty ones. -/
def quiet : Nat → PlacedBlock
  | 0 => paying
  | n + 1 =>
    ⟨UInt32.ofNat (n + 2), ⟨1, (quiet n).block.hash, Hash256.zero, 0, 0, 0, []⟩⟩

/-- The chain of these blocks. -/
def quietChain : ChainView := fun height =>
  if height = 0 then some Hash256.zero else some (quiet (height.toNat - 1)).block.hash

theorem height_quiet (n : Nat) : (quiet n).height = UInt32.ofNat (n + 1) := by
  cases n <;> rfl

theorem quietChain_quiet {n : Nat} (hn : n + 1 < UInt32.size) :
    quietChain (quiet n).height = some (quiet n).block.hash := by
  have htoNat : (UInt32.ofNat (n + 1)).toNat = n + 1 := UInt32.toNat_ofNat_of_lt' hn
  have hne : UInt32.ofNat (n + 1) ≠ 0 := by
    intro hzero
    rw [hzero] at htoNat
    cases htoNat
  rw [height_quiet, quietChain, if_neg hne, htoNat, Nat.add_sub_cancel]

/-- The wallet follows the chain from its creation on. -/
theorem follows_opened : Indexer.Follows quietChain "savings" (opened unbuffered) := by
  obtain ⟨past, hist, -⟩ := history unbuffered
  unfold calls at hist
  obtain ⟨ix₃, _, hist, hreopen'⟩ := hist.previous
  obtain ⟨ix₂, _, hist, haccount⟩ := hist.previous
  obtain ⟨ix₁, _, hist, hreopen⟩ := hist.previous
  obtain ⟨ix₀, _, hist, hcreate⟩ := hist.previous
  have hfirst : ix₀ = Indexer.fresh .bitcoin config := by
    cases hist with
    | opened => rfl
    | called before _ => cases before
  have hcreated : Indexer.Follows quietChain "savings" ix₁ := by
    refine .created ⟨_, _, hist⟩ ?_ ?_ rfl hcreate
    · intro height hash h
      cases h
    · rfl
  rw [hfirst] at hcreate
  have hnet₁ : ix₁.network = .bitcoin := Indexer.network_of_perform (by simp) hcreate
  have hspares : ix₁.Spares "savings" (.reopen .bitcoin config) := .reopened hnet₁.symm config
  have hnet₂ : ix₂.network = .bitcoin := by
    cases hreopen
    rfl
  have hnet₃ : ix₃.network = .bitcoin :=
    (Indexer.network_of_perform (by simp) haccount).trans hnet₂
  have hfilled : Indexer.Follows quietChain "savings" ix₃ := by
    refine (hcreated.spared hspares hreopen).spared ⟨?_, ?_, ?_⟩ haccount
    · intro b hb
      cases hb
    · intro target chain h
      cases h
    · intro network config h
      cases h
  exact hfilled.spared (.reopened hnet₃.symm unbuffered) hreopen'

/-- The ledger after the block that receives, and after every empty block. -/
theorem quiet_run {n : Nat} (hn : n + 1 < UInt32.size) : ∃ ix row hashes,
    Indexer.Follows quietChain "savings" ix ∧ ix.config = unbuffered ∧ row.id = 1 ∧
      ix.store.OnChain quietChain "savings" row (quiet n).ref hashes ∧
      ix.store.ledger = [received (some paying.ref) 9] := by
  induction n with
  | zero =>
    have hpaying : ((opened unbuffered).processBlock paying quietChain).map
        (·.2.store.ledger) = .ok [received (some paying.ref) 9] := by decide +kernel
    obtain ⟨⟨outcome, ix⟩, hblock, hledger⟩ := map_eq_ok_iff.1 hpaying
    obtain ⟨row, tip, hashes, hchain⟩ := follows_opened.onChain
    -- the wallet was opened at height zero
    have hrow := Option.some.inj hchain.found
    have hid : row.id = 1 := (congrArg WalletRow.id hrow).symm
    have hheight : tip.height = 0 := Option.some.inj (congrArg WalletRow.height hrow).symm
    have hhash : tip.hash = Hash256.zero := Hash256.ext (congrArg WalletRow.hash hrow).symm
    have hnext : paying.height.toNat = tip.height.toNat + 1 := by
      rw [hheight]
      rfl
    obtain ⟨hfollows, hconfig, locator, hchain'⟩ :=
      follows_opened.processBlock rfl hchain (quietChain_quiet hn) hhash.symm hnext hblock
    exact ⟨ix, row, locator, hfollows, hconfig, hid, hchain', hledger⟩
  | succ n ih =>
    obtain ⟨ix, row, hashes, hfollows, hconfig, hid, hchain, hledger⟩ := ih (by omega)
    obtain ⟨locator, hbuild⟩ : ∃ locator,
        BlockLocator.build (quiet (n + 1)).ref quietChain = .ok locator := by
      refine BlockLocator.exists_build (quietChain_quiet hn) fun height _ => ?_
      unfold quietChain
      split <;> rfl
    obtain ⟨outcome, store, happly, hkept⟩ := ix.store.applyBatch_empty ix.config
      ⟨(quiet n).block.hash, (quiet (n + 1)).ref⟩ hbuild
    have hblock : ix.processBlock (quiet (n + 1)) quietChain =
        .ok (outcome, { ix with
          store := store, watched := ix.watched.extend outcome.newScripts }) := by
      unfold Indexer.processBlock Indexer.processBatch
      rw [Batch.ofBlock_of_empty rfl]
      exact bind_eq_ok_iff.2 ⟨_, happly, rfl⟩
    have hnext : (quiet (n + 1)).height.toNat = (quiet n).ref.height.toNat + 1 := by
      rw [PlacedBlock.ref, height_quiet, height_quiet, UInt32.toNat_ofNat_of_lt' hn,
        UInt32.toNat_ofNat_of_lt' (by omega)]
    have hmode : ix.config.mode = .allWallets := by
      rw [hconfig]
      rfl
    obtain ⟨hfollows', hconfig', locator, hchain'⟩ :=
      hfollows.processBlock hmode hchain (quietChain_quiet hn) rfl hnext hblock
    exact ⟨_, row, locator, hfollows', hconfig'.trans hconfig, hid, hchain', hkept.trans hledger⟩

/-- The chain, cut above height two. -/
def cutChain : ChainView := fun height => if height ≤ 2 then quietChain height else none

theorem cutChain_of_le {height : UInt32} (h : height ≤ 2) : cutChain height = quietChain height :=
  if_pos h

theorem linked_cutChain : quietChain.HashLinked cutChain := by
  intro height hash _ h below hbelow
  have hle : height ≤ 2 := by
    by_contra hnot
    rw [cutChain, if_neg hnot] at h
    cases h
  exact (cutChain_of_le (UInt32.le_trans (UInt32.le_of_lt hbelow) hle)).symm

theorem isSome_cutChain {height : UInt32} (h : height ≤ 2) : (cutChain height).isSome = true := by
  rw [cutChain_of_le h, quietChain]
  split <;> rfl

/-- A chain that forks at height one and ends there. -/
def forkedChain : ChainView := fun height => if height ≤ 1 then some Hash256.zero else none

theorem forkedChain_of_le {height : UInt32} (h : height ≤ 1) :
    forkedChain height = some Hash256.zero := if_pos h

theorem linked_forkedChain : quietChain.HashLinked forkedChain := by
  intro height hash _ h below hbelow
  have hle : height ≤ 1 := by
    by_contra hnot
    rw [forkedChain, if_neg hnot] at h
    cases h
  -- only height zero lies below
  have hzero : below = 0 := by
    have hone : (1 : UInt32).toNat = 1 := rfl
    have hnone : (0 : UInt32).toNat = 0 := rfl
    rw [UInt32.lt_iff_toNat_lt] at hbelow
    rw [UInt32.le_iff_toNat_le] at hle
    rw [← UInt32.toNat_inj]
    omega
  rw [hzero]
  rfl

/-- The locator of a tip at height ten skips height one. -/
theorem locatorHeights_ten : locatorHeights 10 = [10, 9, 8, 7, 6, 5, 4, 3, 2, 0] := by
  decide +kernel

/-- The forked chain agrees with the other at the heights of the locator that it has. -/
theorem forkedChain_eq {g : UInt32} (hg : g ∈ locatorHeights 10) (hle : g ≤ 1) :
    forkedChain g = quietChain g := by
  have hheights : ([10, 9, 8, 7, 6, 5, 4, 3, 2, 0] : List UInt32).all
      fun g => decide (g ≤ 1 → g = 0) := by
    decide
  rw [locatorHeights_ten] at hg
  rw [of_decide_eq_true (List.all_eq_true.1 hheights g hg) hle]
  rfl

end Sample

namespace Indexer

open Store

variable {ix ix' : Indexer} {c d : ChainView} {name : String} {row : WalletRow} {tip : BlockRef}
variable {hashes : List Hash256}

/-- **What a rollback leaves after a reorganization.** A wallet followed one chain, and a block of
another, not above its tip, is taken to lie on its history. Then the rollback to this block succeeds,
and what the ledger still names is no higher than the block; up to each height of the wallet's locator
that is not above the block, it is of the other chain. -/
theorem rollback_leaves_chain_blocks (hfollows : ix.Follows c name) (hlink : c.HashLinked d)
    {w : Wallet} (hw : ix.store.wallet name = .ok w) (htip : w.tip = some tip) {height : UInt32}
    {hash : Hash256} (hle : height ≤ tip.height) (hd : d height = some hash)
    (hdef : ∀ below ≤ height, (d below).isSome = true)
    (hcontains : ix.containsBlock name (some ⟨height, hash⟩) d = .ok true) :
    ∃ moved ix', ix.rollback name height d = .ok (moved, ix') ∧
      ∃ es, ix'.store.ledgerEntries name = .ok es ∧ ∀ e ∈ es, ∀ block, e.Names block →
        block.height ≤ height ∧ ∀ g ∈ locatorHeights tip.height, g ≤ height → block.height ≤ g →
          d block.height = some block.hash := by
  obtain ⟨row, tip', hashes, hchain⟩ := hfollows.onChain
  have hread := onChain_wallet hchain
  rw [hw] at hread
  cases hread
  cases htip
  obtain ⟨answer, hanswer, hcontains⟩ := bind_eq_ok_iff.1 hcontains
  rw [hw] at hanswer
  cases hanswer
  have hagree := (Wallet.contains_iff rfl hchain.synced hchain.locator hlink hle hd hdef).1 hcontains
  obtain ⟨moved, store, hrollback, ⟨w', hw', hid⟩, hnamed⟩ :=
    named_after_rollback hchain hw hd hle hdef
  have hanswer := rollback_eq hw hrollback
  refine ⟨moved, _, hanswer, ?_⟩
  have hreach : Reachable { ix with store := store } := by
    have hperform : ix.perform (.rollback name height d) = .ok { ix with store := store } := by
      rw [perform, hanswer]
      rfl
    exact hfollows.reachable.perform hperform
  obtain ⟨es, hes, hrows⟩ := exists_ledgerEntries hreach.wellFormed hw'
  refine ⟨es, hes, fun e he block hblock => ?_⟩
  obtain ⟨r, hr, hown, hdecode⟩ := hrows e he
  rw [hid] at hown
  obtain ⟨hbefore, hbound⟩ := hnamed block ⟨r, hr, hown, LedgerRow.names_of_decode hdecode hblock⟩
  refine ⟨hbound, fun g hg hgle hblockle => ?_⟩
  have hc := (hchain.named block hbefore).2
  -- both chains have one hash at the locator's height
  obtain ⟨hash', hhash'⟩ := Option.isSome_iff_exists.1 (hdef g hgle)
  have hc' := (hagree g hg hgle).symm.trans hhash'
  rw [hlink.eq_of_le hc' hhash' hblockle]
  exact hc

/-- A chain that is cut at height two is followed up to there: after the rollback every block that the
ledger names is of the cut chain. -/
theorem rollback_leaves_chain_blocks_cut : ∃ (d : ChainView) (ix ix' : Indexer) (moved : Bool)
    (es : List LedgerEntry), Follows Sample.quietChain "savings" ix ∧
    Sample.quietChain.HashLinked d ∧ d 3 = none ∧
    ix.rollback "savings" 2 d = .ok (moved, ix') ∧ ix'.store.ledgerEntries "savings" = .ok es ∧
    ∀ e ∈ es, ∀ block, e.Names block → d block.height = some block.hash := by
  obtain ⟨ix, row, hashes, hfollows, -, -, hchain, -⟩ :=
    Sample.quiet_run (n := 9) (by decide)
  have hheight : (Sample.quiet 9).ref.height = 10 := Sample.height_quiet 9
  have hle : (2 : UInt32) ≤ (Sample.quiet 9).ref.height := by
    rw [hheight]
    decide
  have hcut : Sample.cutChain 2 = some (Sample.quiet 1).block.hash := rfl
  have hdef : ∀ below ≤ (2 : UInt32), (Sample.cutChain below).isSome = true :=
    fun _ => Sample.isSome_cutChain
  have hcontains := containsBlock_of_onChain hchain Sample.linked_cutChain hle hcut hdef
    fun g _ hg => Sample.cutChain_of_le hg
  obtain ⟨moved, ix', hrollback, es, hes, hblocks⟩ := rollback_leaves_chain_blocks hfollows
    Sample.linked_cutChain (onChain_wallet hchain) rfl hle hcut hdef hcontains
  refine ⟨Sample.cutChain, ix, ix', moved, es, hfollows, Sample.linked_cutChain, rfl, hrollback, hes,
    fun e he block hblock => ?_⟩
  obtain ⟨hbound, hchain⟩ := hblocks e he block hblock
  refine hchain 2 ?_ (UInt32.le_refl _) hbound
  rw [hheight, Sample.locatorHeights_ten]
  decide

/-- Between the heights of the locator nothing is compared: a chain that forks at height one, right
below the block asked for, passes, and the rollback leaves the deposit of the stale block. -/
theorem rollback_leaves_stale_block : ∃ (c d : ChainView) (ix ix' : Indexer) (hash : Hash256)
    (moved : Bool) (es : List LedgerEntry) (e : LedgerEntry) (block : BlockRef),
    Follows c "savings" ix ∧ c.HashLinked d ∧ (∀ below ≤ (1 : UInt32), (d below).isSome = true) ∧
    (∃ w tip, ix.store.wallet "savings" = .ok w ∧ w.tip = some tip ∧ 1 ≤ tip.height) ∧
    d 1 = some hash ∧ ix.containsBlock "savings" (some ⟨1, hash⟩) d = .ok true ∧
    ix.rollback "savings" 1 d = .ok (moved, ix') ∧ ix'.store.ledgerEntries "savings" = .ok es ∧
    e ∈ es ∧ e.block = some block ∧ d block.height ≠ some block.hash := by
  obtain ⟨ix, row, hashes, hfollows, -, hid, hchain, hledger⟩ :=
    Sample.quiet_run (n := 9) (by decide)
  have hdef : ∀ below ≤ (1 : UInt32), (Sample.forkedChain below).isSome = true := by
    intro below hbelow
    rw [Sample.forkedChain_of_le hbelow]
    rfl
  have hheight : (Sample.quiet 9).ref.height = 10 := Sample.height_quiet 9
  have hlt : (1 : UInt32) < (Sample.quiet 9).ref.height := by
    rw [hheight]
    decide
  have hwallet := onChain_wallet hchain
  have hcontains := containsBlock_of_onChain hchain Sample.linked_forkedChain (UInt32.le_of_lt hlt) rfl
    hdef fun g hg hle => Sample.forkedChain_eq (hheight ▸ hg) hle
  -- the row of the deposit is no higher than the block asked for
  have hrows : (ix.store.undoAbove row.id 1).ledger =
      [Sample.received (some Sample.paying.ref) 9] := by
    unfold undoAbove
    simp only [hledger, hid]
    rfl
  have hdecode : (Sample.received (some Sample.paying.ref) 9).decode = .ok (Sample.entry none) := by
    decide +kernel
  obtain ⟨moved, store, hrollback, ⟨w', hwallet', hid'⟩, -⟩ :=
    named_after_rollback hchain hwallet rfl (UInt32.le_of_lt hlt) hdef
  have hstore : store.ledger = (ix.store.undoAbove row.id 1).ledger := by
    have habove : (some (Sample.quiet 9).ref).any ((1 : UInt32) < ·.height) = true := by
      simpa using hlt
    obtain ⟨locator, hbuild⟩ : ∃ locator,
        BlockLocator.build ⟨1, Hash256.zero⟩ Sample.forkedChain = .ok locator :=
      BlockLocator.exists_build rfl hdef
    rw [rollback_of_above habove rfl hbuild] at hrollback
    cases hrollback
    rfl
  have hes : store.ledgerEntries "savings" = .ok [Sample.entry none] := by
    refine bind_eq_ok_iff.2 ⟨w', hwallet', ?_⟩
    rw [hid', hid, ledgerOf, entries, hstore, hrows]
    exact bind_eq_ok_iff.2 ⟨_, hdecode, rfl⟩
  have hne : Sample.paying.block.hash ≠ Hash256.zero := by decide +kernel
  refine ⟨Sample.quietChain, Sample.forkedChain, ix, _, Hash256.zero, moved, [Sample.entry none],
    Sample.entry none, Sample.paying.ref, hfollows, Sample.linked_forkedChain, hdef,
    ⟨_, _, hwallet, rfl, UInt32.le_of_lt hlt⟩, rfl, hcontains, rollback_eq hwallet hrollback, hes,
    List.mem_cons_self, rfl, ?_⟩
  intro hsame
  exact hne (Option.some.inj hsame).symm

end Indexer

end WalletLedger
