import WalletLedger.Proofs.Sources

/-!
# Rollback undoes blocks

Blocks above a height add rows above it and spend rows above it, and nothing else happens to a wallet
that is settled up to that height. A rollback to the height takes exactly this back.

* `Store.Above`: what blocks above a height do to a wallet, proved by `Store.above_of_writes`.
* `Indexer.Tracks`: what is known of a wallet after each of its blocks, the step lemma being
  `Indexer.Tracks.processBlock`.
* `Indexer.rollback_undoes_blocks`: rolling back answers as before the later blocks.
-/

namespace WalletLedger

/-- Whether a row belongs to a wallet. -/
def LedgerRow.isOf (wallet : Int) (r : LedgerRow) : Bool := r.key.address.group.wallet == wallet

/-- A row whose deposit, and spend if there is one, are in blocks up to a height. -/
structure LedgerRow.SettledBy (bound : UInt32) (r : LedgerRow) : Prop where
  deposit : ∃ height ≤ bound, r.deposit.height = some height ∧ r.deposit.hash.isSome = true
  spend : r.spend = .unspent ∨
    ∃ height ≤ bound, r.spend.height = some height ∧ r.spend.hash.isSome = true

/-- Everything in a batch was seen in one block. -/
def Batch.IsAt (ref : BlockRef) (b : Batch) : Prop :=
  (∀ o ∈ b.outputs, o.block = some ref) ∧ ∀ sp ∈ b.spends, sp.block = some ref

/-- What was seen under no header: nothing in a batch names a block. -/
def Batch.Unconfirmed (b : Batch) : Prop :=
  (∀ o ∈ b.outputs, o.block = none) ∧ ∀ sp ∈ b.spends, sp.block = none

theorem Batch.isAt_ofBlock (placed : PlacedBlock) : (ofBlock placed).IsAt placed.ref := by
  constructor
  · intro o ho
    obtain ⟨b, hb, ho⟩ := List.mem_flatMap.1 ho
    obtain ⟨tx, -, rfl⟩ := List.mem_map.1 hb
    obtain ⟨⟨output, vout⟩, -, rfl⟩ := List.mem_map.1 ho
    rfl
  · intro sp hsp
    obtain ⟨b, hb, hsp⟩ := List.mem_flatMap.1 hsp
    obtain ⟨tx, -, rfl⟩ := List.mem_map.1 hb
    simp only [ofTransaction] at hsp
    split at hsp
    · cases hsp
    · obtain ⟨input, -, rfl⟩ := List.mem_map.1 hsp
      rfl

/-- A wallet row once its scope has moved to a tip. -/
def Scope.move (scope : Scope) (tip : BlockRef) (hashes : List Hash256) (row : WalletRow) : WalletRow :=
  if scope.covers row then row.withTip tip hashes else row

/-- The wallets in scope move to a tip, their locators read from a chain; all others stay. -/
def Scope.Moves (scope : Scope) (tip : BlockRef) (chain : ChainView)
    (rows rows' : List WalletRow) : Prop :=
  ∃ hashes, (∀ row ∈ rows, scope.covers row = true →
      ∃ locator, BlockLocator.build tip chain = .ok locator ∧ locator.hashes = hashes) ∧
    rows' = rows.map (scope.move tip hashes)

theorem Scope.name_move (scope : Scope) (tip : BlockRef) (hashes : List Hash256) (row : WalletRow) :
    (scope.move tip hashes row).name = row.name := by
  unfold move
  split <;> rfl

theorem Scope.id_move (scope : Scope) (tip : BlockRef) (hashes : List Hash256) (row : WalletRow) :
    (scope.move tip hashes row).id = row.id := by
  unfold move
  split <;> rfl

theorem Scope.move_of_covers {scope : Scope} {tip : BlockRef} {hashes : List Hash256} {row : WalletRow}
    (h : scope.covers row = true) : scope.move tip hashes row = row.withTip tip hashes := if_pos h

theorem Scope.move_of_not {scope : Scope} {tip : BlockRef} {hashes : List Hash256} {row : WalletRow}
    (h : ¬ scope.covers row = true) : scope.move tip hashes row = row := if_neg h

/-- Wallets move in one way, if the locator can be read from either chain. -/
theorem Scope.Moves.eq {scope : Scope} {tip : BlockRef} {chain view : ChainView}
    {rows rows₁ rows₂ : List WalletRow} (h : scope.Moves tip chain rows rows₁)
    (h' : scope.Moves tip view rows rows₂)
    (hbuild : BlockLocator.build tip chain = BlockLocator.build tip view) : rows₁ = rows₂ := by
  obtain ⟨hashes₁, hread₁, rfl⟩ := h
  obtain ⟨hashes₂, hread₂, rfl⟩ := h'
  refine List.map_congr_left fun row hrow => ?_
  unfold move
  split
  · rename_i hcovers
    obtain ⟨locator₁, hbuild₁, rfl⟩ := hread₁ row hrow hcovers
    obtain ⟨locator₂, hbuild₂, rfl⟩ := hread₂ row hrow hcovers
    rw [hbuild, hbuild₂] at hbuild₁
    cases hbuild₁
    rfl
  · rfl

namespace LedgerRow

variable {r : LedgerRow} {bound bound' : UInt32}

theorem spendBy_eq (r : LedgerRow) (spends : List StagedSpend) :
    r.spendBy spends = { r with spend := (r.spendBy spends).spend } := by
  unfold spendBy
  split <;> rfl

theorem SettledBy.mono (h : r.SettledBy bound) (hle : bound ≤ bound') : r.SettledBy bound' := by
  obtain ⟨⟨height, hheight, hrest⟩, hspend⟩ := h
  refine ⟨⟨height, UInt32.le_trans hheight hle, hrest⟩, hspend.imp id ?_⟩
  rintro ⟨height, hheight, hrest⟩
  exact ⟨height, UInt32.le_trans hheight hle, hrest⟩

theorem SettledBy.isConfirmed (h : r.SettledBy bound) : r.deposit.isConfirmed = true := by
  obtain ⟨height, -, hheight, hhash⟩ := h.deposit
  rw [DepositSide.isConfirmed, hheight, hhash]
  rfl

/-- A settled row is spent in a block or not at all. -/
theorem SettledBy.spend_cases (h : r.SettledBy bound) :
    r.spend = .unspent ∨ r.spend.isConfirmed = true := by
  rcases h.spend with hspend | ⟨height, -, hheight, hhash⟩
  · exact .inl hspend
  · right
    rw [SpendSide.isConfirmed, hheight, hhash]
    rfl

theorem isAbove_of_le {height : UInt32} (h : height ≤ bound) : isAbove bound (some height) = false := by
  simpa [isAbove] using h

theorem SettledBy.deposit_not_above (h : r.SettledBy bound) :
    isAbove bound r.deposit.height = false := by
  obtain ⟨height, hle, hheight, -⟩ := h.deposit
  rw [hheight, isAbove_of_le hle]

theorem SettledBy.spend_not_above (h : r.SettledBy bound) : isAbove bound r.spend.height = false := by
  rcases h.spend with hspend | ⟨height, hle, hheight, -⟩
  · rw [hspend]
    rfl
  · rw [hheight, isAbove_of_le hle]

end LedgerRow

namespace Store

variable {s s' t : Store} {wallet : Int} {bound : UInt32} {ref : BlockRef} {r : LedgerRow}

/-- The rows of a wallet as a rollback to a height leaves them. -/
def below (s : Store) (wallet : Int) (bound : UInt32) : List LedgerRow :=
  (s.ledger.filter fun r => r.isOf wallet && !isAbove bound r.deposit.height).map fun r =>
    if isAbove bound r.spend.height then { r with spend := .unspent } else r

/-- What blocks above a height do: they change nothing of a wallet that the height still shows. -/
structure Above (wallet : Int) (bound : UInt32) (s s' : Store) : Prop where
  below : s'.below wallet bound = s.below wallet bound
  frozen : ∀ r ∈ s.ledger, r.deposit.isConfirmed = true → r.spend.isConfirmed = true →
    r ∈ s'.ledger ∧ s'.paid r.source = s.paid r.source
  addresses : ∀ a ∈ s.addresses, a ∈ s'.addresses

/-- All rows of a wallet are settled by a height. -/
def SettledBy (s : Store) (wallet : Int) (bound : UInt32) : Prop :=
  ∀ r ∈ s.ledger, r.isOf wallet = true → r.SettledBy bound

theorem Above.refl (s : Store) : Above wallet bound s s where
  below := rfl
  frozen := by intro r hr _ _; exact ⟨hr, rfl⟩
  addresses := by intro a ha; exact ha

theorem Above.trans (h : Above wallet bound s t) (h' : Above wallet bound t s') :
    Above wallet bound s s' where
  below := h'.below.trans h.below
  frozen := by
    intro r hr hdeposit hspend
    obtain ⟨hrt, hpaid⟩ := h.frozen r hr hdeposit hspend
    obtain ⟨hrs, hpaid'⟩ := h'.frozen r hrt hdeposit hspend
    exact ⟨hrs, hpaid'.trans hpaid⟩
  addresses := by intro a ha; exact h'.addresses a (h.addresses a ha)

/-- A settled wallet is shown as it is. -/
theorem SettledBy.below_eq (h : s.SettledBy wallet bound) :
    s.below wallet bound = s.ledger.filter (·.isOf wallet) := by
  -- neither filter nor clearing finds anything above the height
  have hfilter : s.ledger.filter (fun r => r.isOf wallet && !isAbove bound r.deposit.height) =
      s.ledger.filter (·.isOf wallet) := by
    refine List.filter_congr fun r hr => ?_
    cases hown : r.isOf wallet with
    | false => rfl
    | true => rw [(h r hr hown).deposit_not_above]; rfl
  unfold below
  rw [hfilter]
  refine map_eq_self fun r hr => ?_
  obtain ⟨hr, hown⟩ := List.mem_filter.1 hr
  rw [(h r hr hown).spend_not_above]
  rfl

/-- A rollback leaves the rows of its wallet as they are shown. -/
theorem filter_undoAbove (s : Store) (wallet : Int) (bound : UInt32) :
    (s.undoAbove wallet bound).ledger.filter (·.isOf wallet) = s.below wallet bound := by
  unfold undoAbove below
  simp only
  rw [filter_map_comm fun r _ => ?_, List.filter_filter]
  · have hfilter : s.ledger.filter (fun r => r.isOf wallet &&
        !((r.key.address.group.wallet == wallet) && isAbove bound r.deposit.height)) =
          s.ledger.filter fun r => r.isOf wallet && !isAbove bound r.deposit.height := by
      refine List.filter_congr fun r _ => ?_
      unfold LedgerRow.isOf
      cases r.key.address.group.wallet == wallet <;> rfl
    rw [hfilter]
    refine List.map_congr_left fun r hr => ?_
    have hown := (Bool.and_eq_true_iff.1 (List.mem_filter.1 hr).2).1
    rw [LedgerRow.isOf] at hown
    simp only [hown, Bool.true_and]
  · split <;> rfl

/-! ## Writes above a height -/

theorem settledBy_record {d : Deposit} (hs : s.SettledBy wallet ref.height)
    (hd : d.side.height = some ref.height ∧ d.side.hash.isSome = true) :
    (s.record d).2.SettledBy wallet ref.height := by
  intro r hr hown
  rcases mem_ledger_record hr with hr | ⟨hkey, hdeposit, hspend⟩
  · exact hs r hr hown
  · refine ⟨⟨ref.height, UInt32.le_refl _, ?_⟩, ?_⟩
    · rw [hdeposit]
      exact hd
    · rcases hspend with hspend | ⟨row, hrow, hk, hspend⟩
      · exact .inl hspend
      · rw [hspend]
        refine (hs row hrow ?_).spend
        rw [LedgerRow.isOf, hk, ← hkey]
        exact hown

theorem settledBy_matchSpends {scope : Scope} {batch : Batch} (hs : s.SettledBy wallet ref.height)
    (hb : ∀ sp ∈ batch.spends, sp.block = some ref) :
    (s.matchSpends scope batch).2.SettledBy wallet ref.height := by
  intro r hr hown
  obtain ⟨r₀, hr₀, rfl⟩ := List.mem_map.1 hr
  split
  · rename_i hhit
    rw [if_pos hhit, LedgerRow.isOf, (r₀.key_spendBy _).1] at hown
    refine ⟨?_, ?_⟩
    · rw [(r₀.key_spendBy _).2]
      exact (hs r₀ hr₀ hown).deposit
    · rcases spend_spendBy r₀ batch.spends with hspend | ⟨sp, hsp, hspend⟩
      · rw [hspend]
        exact (hs r₀ hr₀ hown).spend
      · have hblock := hb sp (List.mem_filter.1 hsp).1
        refine .inr ⟨ref.height, UInt32.le_refl _, ?_⟩
        rw [hspend]
        simp only [SpendSide.ofSpend, hblock]
        exact ⟨rfl, rfl⟩
  · rename_i hhit
    rw [if_neg hhit] at hown
    exact hs r₀ hr₀ hown

/-- A deposit of a block says where the block is. -/
theorem IsDue.side_of_isAt {scope : Scope} {batch : Batch} {d : Deposit}
    (h : s.IsDue scope batch.outputs d) (hb : batch.IsAt ref) :
    d.side.height = some ref.height ∧ d.side.hash.isSome = true := by
  obtain ⟨o, ho, a, -, -, -, rfl⟩ := h
  have hblock := hb.1 o ho
  simp only [Deposit.ofOutput, hblock]
  exact ⟨rfl, rfl⟩

/-- A batch of one block keeps a wallet settled by the height of the block. -/
theorem settledBy_of_write (hs : s.SettledBy wallet ref.height) (h : Write (Batch.IsAt ref) s s') :
    s'.SettledBy wallet ref.height := by
  rcases ledger_cases h with ⟨scope, batch, d, admitted, due, rfl⟩ |
    ⟨scope, batch, admitted, rfl⟩ | ⟨hledger, -, -⟩
  · exact settledBy_record hs (due.side_of_isAt admitted)
  · exact settledBy_matchSpends hs admitted.2
  · intro r hr hown
    rw [hledger] at hr
    exact hs r hr hown

/-- A deposit above a height is not shown below it. -/
theorem below_record {d : Deposit} (hs : s.SettledBy wallet ref.height)
    (hd : isAbove bound d.side.height = true) :
    (s.record d).2.below wallet bound = s.below wallet bound := by
  unfold below
  congr 1
  rcases s.record_cases d with ⟨-, heq⟩ | ⟨row, hrow, hkey, hunconf, heq⟩ | ⟨row, -, -, -, heq⟩
  · -- a new row lies above
    have htest : (LedgerRow.isOf wallet ⟨d.key, d.side, .unspent⟩ &&
        !isAbove bound d.side.height) = false := by
      rw [hd, Bool.not_true, Bool.and_false]
    rw [heq]
    simp only
    rw [List.filter_append, List.filter_cons_of_neg, List.filter_nil, List.append_nil]
    rw [htest]
    exact Bool.false_ne_true
  · -- a replaced row was unconfirmed, so it is of another wallet
    have hother : ∀ r ∈ s.ledger, r.key = d.key → r.isOf wallet = false := by
      intro r hr hk
      by_contra hown
      rw [LedgerRow.isOf, hk, ← hkey] at hown
      have hconf := (hs row hrow (by simpa [LedgerRow.isOf] using hown)).isConfirmed
      rw [DepositSide.isConfirmed, Bool.and_eq_true] at hconf
      rw [DepositSide.isUnconfirmed, Bool.and_eq_true, Option.isNone_iff_eq_none] at hunconf
      rw [hunconf.1] at hconf
      cases hconf.1
    rw [heq]
    simp only
    rw [filter_map_comm fun r hr => ?_, map_eq_self fun r hr => ?_]
    · obtain ⟨hr, hown⟩ := List.mem_filter.1 hr
      refine if_neg fun hk => ?_
      rw [hother r hr hk] at hown
      cases hown
    · split
      · rename_i hk
        have hown := hother r hr hk
        rw [LedgerRow.isOf] at hown ⊢
        rw [hown, LedgerRow.isOf, hown]
        rfl
      · rfl
  · rw [heq]

/-- A spend above a height is not shown below it. -/
theorem below_matchSpends {scope : Scope} {batch : Batch} (hs : s.SettledBy wallet ref.height)
    (hb : ∀ sp ∈ batch.spends, isAbove bound (SpendSide.ofSpend sp).height = true) :
    (s.matchSpends scope batch).2.below wallet bound = s.below wallet bound := by
  unfold below
  simp only [matchSpends]
  rw [filter_map_comm fun r _ => ?_, List.map_map]
  · refine List.map_congr_left fun r hr => ?_
    obtain ⟨hr, hown⟩ := List.mem_filter.1 hr
    have hsettled := hs r hr (Bool.and_eq_true_iff.1 hown).1
    rw [Function.comp_apply]
    split
    · rename_i hhit
      -- the row was unspent, and its spend lies above
      have hunspent : r.spend = .unspent := by
        rcases hsettled.spend_cases with h | h
        · exact h
        · rw [(hit_of_isSpentBy hhit).1] at h
          cases h
      have hrow : isAbove bound r.spend.height = false := by
        rw [hunspent]
        rfl
      rw [hrow]
      rcases spend_spendBy r batch.spends with hspend | ⟨sp, hsp, hspend⟩
      · rw [hspend, hrow, r.spendBy_eq, hspend]
      · have hheight : isAbove bound (r.spendBy batch.spends).spend.height = true := by
          rw [hspend]
          exact hb sp (List.mem_filter.1 hsp).1
        rw [hheight, r.spendBy_eq]
        simp only [if_true, ← hunspent]
        rfl
    · rfl
  · split
    · rw [LedgerRow.isOf, LedgerRow.isOf, (r.key_spendBy _).1, (r.key_spendBy _).2]
    · rfl

/-- What a batch of one block does is not shown below its height. -/
theorem below_of_write (hs : s.SettledBy wallet ref.height) (hbound : bound < ref.height)
    (h : Write (Batch.IsAt ref) s s') : s'.below wallet bound = s.below wallet bound := by
  have habove : isAbove bound (some ref.height) = true := by simpa [isAbove] using hbound
  rcases ledger_cases h with ⟨scope, batch, d, admitted, due, rfl⟩ |
    ⟨scope, batch, admitted, rfl⟩ | ⟨hledger, -, -⟩
  · refine below_record hs ?_
    rw [(due.side_of_isAt admitted).1]
    exact habove
  · refine below_matchSpends hs fun sp hsp => ?_
    simp only [SpendSide.ofSpend, admitted.2 sp hsp]
    exact habove
  · rw [below, below, hledger]

/-- A write keeps every row that is confirmed and spent in a block, with its payments. -/
theorem frozen_of_write {staged : Batch → Prop} (hs : s.WellFormed) (ha : s.Anchored)
    (ho' : s'.OneRowPerOutput) (h : Write staged s s') (hr : r ∈ s.ledger)
    (hdeposit : r.deposit.isConfirmed = true) (hspend : r.spend.isConfirmed = true) :
    r ∈ s'.ledger ∧ s'.paid r.source = s.paid r.source := by
  obtain ⟨r', hr', hkey⟩ := List.mem_map.1 (mem_keys_of_write h (List.mem_map_of_mem hr))
  cases (carried_of_write hs ha ho' h).2 r' hr' with
  | blank fresh spend paid => exact absurd hkey.symm (fresh r hr)
  | @same q mem key spend deposit paid =>
    have hsame := hs.eq_of_key mem hr (key.trans hkey)
    subst hsame
    have hrow : q = r' := by
      have hside := deposit hdeposit
      cases q
      cases r'
      simp_all
    subst hrow
    exact ⟨hr', paid⟩
  | @spent q scope batch admitted mem hit row paid =>
    rw [row, (q.key_spendBy _).1] at hkey
    rw [hs.eq_of_key mem hr hkey] at hit
    rw [(hit_of_isSpentBy hit).1] at hspend
    cases hspend

theorem addresses_of_write {staged : Batch → Prop} (h : Write staged s s') :
    ∀ a ∈ s.addresses, a ∈ s'.addresses := by
  intro a ha
  rcases ledger_cases h with ⟨_, _, d, -, -, rfl⟩ | ⟨_, _, -, rfl⟩ | ⟨-, -, haddresses⟩
  · rw [addresses_record]
    exact ha
  · exact ha
  · exact haddresses a ha

/-- **A batch of one block** works above every height below its own. -/
theorem above_of_writes (hs : s.WellFormed) (ha : s.Anchored) (ho' : s'.OneRowPerOutput)
    (hsettled : s.SettledBy wallet ref.height) (h : Writes (Batch.IsAt ref) s s') :
    s'.SettledBy wallet ref.height ∧ ∀ bound < ref.height, Above wallet bound s s' := by
  induction h with
  | refl => exact ⟨hsettled, fun _ _ => .refl s⟩
  | tail hwrites hwrite ih =>
    have hm := wellFormed_of_writes hs hwrites
    have hom := oneRow_of_write hm ho' hwrite
    have ham := anchored_of_writes hs ha hom hwrites
    obtain ⟨hsm, habove⟩ := ih hom
    refine ⟨settledBy_of_write hsm hwrite, fun bound hbound => ?_⟩
    refine (habove bound hbound).trans ⟨below_of_write hsm hbound hwrite, ?_, ?_⟩
    · intro r hr hdeposit hspend
      exact frozen_of_write hm ham ho' hwrite hr hdeposit hspend
    · exact addresses_of_write hwrite

/-! ## Wallet rows -/

theorem decode_withTip (row : WalletRow) (tip : BlockRef) (hashes : List Hash256) :
    (row.withTip tip hashes).decode = .ok ⟨row.id, row.name, some tip, hashes, row.fromExtendedKey,
      row.seed, row.chainCode, row.created⟩ := by
  have htip : (row.withTip tip hashes).tip = .ok (some tip) := by
    have hread : readBlockHash tip.hash.bytes = .ok tip.hash := readBlockHash_eq_ok_iff.2 rfl
    simp only [WalletRow.tip, WalletRow.withTip, hread]
    rfl
  have hlocator : BlockLocator.decode (row.withTip tip hashes).locator = .ok hashes :=
    BlockLocator.decode_encode hashes
  unfold WalletRow.decode
  rw [htip, hlocator]
  rfl

theorem wallet_of_walletRow? {name : String} {row : WalletRow}
    (h : s.walletRow? name = some row) : s.wallet name = row.decode := by
  rw [wallet, h]

theorem walletRow?_map {f : WalletRow → WalletRow} (hname : ∀ row, (f row).name = row.name)
    (hw : s'.wallets = s.wallets.map f) (name : String) :
    s'.walletRow? name = (s.walletRow? name).map f := by
  have htest : (fun row : WalletRow => row.name == name) ∘ f = fun row => row.name == name := by
    funext row
    rw [Function.comp_apply, hname]
  rw [walletRow?, hw, List.find?_map, htest, walletRow?]

/-- Moving a wallet changes the row that holds its identifier. -/
theorem walletRow?_setTip (s : Store) (wallet : Int) (tip : BlockRef) (hashes : List Hash256)
    (name : String) : (s.setTip wallet tip hashes).walletRow? name =
      (s.walletRow? name).map fun row => if row.id = wallet then row.withTip tip hashes else row := by
  refine walletRow?_map (fun row => ?_) rfl name
  split <;> rfl

theorem wallets_foldl_setTip (tip : BlockRef) (hashes : List Hash256) (ws : List WalletRow)
    (s : Store) : (ws.foldl (fun s w => s.setTip w.id tip hashes) s).wallets =
      s.wallets.map fun row => if ws.any (·.id == row.id) then row.withTip tip hashes else row := by
  induction ws generalizing s with
  | nil =>
    exact (map_eq_self fun _ _ => rfl).symm
  | cons w ws ih =>
    rw [List.foldl_cons, ih, setTip, List.map_map]
    refine List.map_congr_left fun row _ => ?_
    rw [Function.comp_apply, List.any_cons]
    by_cases hid : row.id = w.id
    · rw [if_pos hid, hid, beq_self_eq_true, Bool.true_or, if_pos rfl]
      split <;> rfl
    · rw [if_neg hid, beq_false_of_ne (Ne.symm hid), Bool.false_or]

/-- Two wallets of one identifier are one wallet. -/
theorem WellFormed.nodup_wallet_ids (hs : s.WellFormed) : (s.wallets.map (·.id)).Nodup := by
  rw [hs.wallet_ids]
  refine List.Nodup.map (fun m n hmn => ?_) List.nodup_range
  have hcast : (m : Int) + 1 = (n : Int) + 1 := hmn
  omega

theorem WellFormed.eq_of_wallet_id (hs : s.WellFormed) {row row' : WalletRow}
    (hrow : row ∈ s.wallets) (hrow' : row' ∈ s.wallets) (hid : row.id = row'.id) : row = row' :=
  List.inj_on_of_nodup_map hs.nodup_wallet_ids hrow hrow' hid

theorem WellFormed.inScope_eq (hs : s.WellFormed) {scope : Scope} {row : WalletRow}
    (hrow : row ∈ s.wallets) :
    s.inScope scope row.id = scope.covers row := by
  rw [Bool.eq_iff_iff, inScope, List.any_eq_true]
  constructor
  · rintro ⟨row', hrow', h⟩
    rw [Bool.and_eq_true, beq_iff_eq] at h
    rw [← hs.eq_of_wallet_id hrow' hrow h.1]
    exact h.2
  · intro h
    exact ⟨row, hrow, by rw [h, beq_self_eq_true, Bool.and_self]⟩

/-- The wallets in scope move to the tip of the header, and all others stay. -/
theorem moves_advance (hs : s.WellFormed) {scope : Scope} {header : BatchHeader}
    {chain : ChainView} {names : List String}
    (h : s.advance scope (some header) chain = .ok (names, s')) :
    scope.Moves header.tip chain s.wallets s'.wallets := by
  unfold advance at h
  dsimp only at h
  split at h
  · rename_i hnil
    cases h
    have hnone : ∀ row ∈ s.wallets, ¬ scope.covers row = true := List.filter_eq_nil_iff.1 hnil
    refine ⟨[], fun row hrow hcovers => absurd hcovers (hnone row hrow), ?_⟩
    exact (map_eq_self fun row hrow => if_neg (hnone row hrow)).symm
  · obtain ⟨locator, hbuild, h⟩ := bind_eq_ok_iff.1 h
    cases h
    refine ⟨locator.hashes, fun _ _ _ => ⟨locator, hbuild, rfl⟩, ?_⟩
    rw [wallets_foldl_setTip]
    refine List.map_congr_left fun row hrow => ?_
    have hany : (s.wallets.filter scope.covers).any (·.id == row.id) = scope.covers row := by
      rw [← hs.inScope_eq hrow, inScope, List.any_filter]
      simp only [Bool.and_comm]
    rw [hany, Scope.move]

/-- A batch with a header moves the wallets that it extends. -/
theorem moves_applyBatch (hs : s.WellFormed) {config : Config} {header : BatchHeader}
    {batch : Batch} {chain : ChainView} {outcome : BatchOutcome}
    (h : s.applyBatch config batch (some header) chain = .ok (outcome, s')) :
    (Scope.ofBatch config (some header)).Moves header.tip chain s.wallets s'.wallets := by
  obtain ⟨found, d, names, hrounds, hmoved⟩ := parts_of_applyBatch h
  have hd := wellFormed_rounds hs hrounds
  have hspent : (d.matchSpends (Scope.ofBatch config (some header)) batch).2.wallets = s.wallets :=
    (frame_rounds hrounds).1
  have hmoves := moves_advance (wellFormed_matchSpends hd) hmoved
  rw [hspent] at hmoves
  exact hmoves

/-- A batch without a header moves none. -/
theorem wallets_applyBatch_none {config : Config} {batch : Batch} {chain : ChainView}
    {outcome : BatchOutcome} (h : s.applyBatch config batch none chain = .ok (outcome, s')) : s'.wallets = s.wallets := by
  obtain ⟨found, d, names, hrounds, hmoved⟩ := parts_of_applyBatch h
  cases hmoved
  exact (frame_rounds hrounds).1

/-- A wallet in scope moves to the tip. -/
theorem walletRow?_of_covers {scope : Scope} {tip : BlockRef} {chain : ChainView} {name : String}
    {row : WalletRow} (h : scope.Moves tip chain s.wallets s'.wallets)
    (hrow : s.walletRow? name = some row) (hcovers : scope.covers row = true) :
    ∃ locator, BlockLocator.build tip chain = .ok locator ∧
      s'.walletRow? name = some (row.withTip tip locator.hashes) := by
  obtain ⟨hashes, hread, hwallets⟩ := h
  obtain ⟨locator, hbuild, rfl⟩ := hread row (List.mem_of_find?_eq_some hrow) hcovers
  refine ⟨locator, hbuild, ?_⟩
  rw [walletRow?_map (scope.name_move tip locator.hashes) hwallets, hrow, Option.map_some,
    Scope.move_of_covers hcovers]

/-- A wallet that is not in scope stays where it is. -/
theorem walletRow?_of_not_covers {scope : Scope} {tip : BlockRef} {chain : ChainView} {name : String}
    {row : WalletRow} (h : scope.Moves tip chain s.wallets s'.wallets)
    (hrow : s.walletRow? name = some row) (hcovers : ¬ scope.covers row = true) :
    s'.walletRow? name = some row := by
  obtain ⟨hashes, -, hwallets⟩ := h
  rw [walletRow?_map (scope.name_move tip hashes) hwallets, hrow, Option.map_some,
    Scope.move_of_not hcovers]

/-! ## Answers -/

theorem rollback_of_not_above {w : Wallet} {target : UInt32} (chain : ChainView)
    (h : w.tip.any (target < ·.height) = false) : s.rollback w target chain = .ok (false, s) := by
  unfold rollback
  rw [h]
  rfl

theorem rollback_of_above {w : Wallet} {target : UInt32} {chain : ChainView} {hash : Hash256}
    {locator : BlockLocator} (h : w.tip.any (target < ·.height) = true)
    (hat : chain target = some hash) (hbuild : BlockLocator.build ⟨target, hash⟩ chain = .ok locator) :
    s.rollback w target chain =
      .ok (true, (s.undoAbove w.id target).setTip w.id ⟨target, hash⟩ locator.hashes) := by
  unfold rollback
  rw [h, if_pos rfl, hat]
  exact bind_eq_ok_iff.2 ⟨locator, hbuild, rfl⟩

/-- A payment is read, as what it spends has a whole hash. -/
theorem WellFormed.exists_payment (hs : s.WellFormed) {p : PaymentRow} (hp : p ∈ s.payments) :
    ∃ q, p.decode = .ok q := by
  have hread : readTxid p.source.txid = .ok ⟨p.source.txid, hs.payments p hp⟩ := readTxid_bytes ⟨_, _⟩
  unfold PaymentRow.decode
  rw [hread]
  exact ⟨_, rfl⟩

theorem exists_paymentsFor (hs : s.WellFormed) (o : OutPoint) : ∃ ps, s.paymentsFor o = .ok ps := by
  exact exists_mapM_eq_ok fun p hp =>
    hs.exists_payment (List.mem_filter.1 ((Sorting.mem_sortBy _).1 hp)).1

/-- The ledger of a wallet is read row by row. -/
theorem exists_ledgerEntries (hs : s.WellFormed) {name : String} {w : Wallet}
    (hw : s.wallet name = .ok w) : ∃ es, s.ledgerEntries name = .ok es ∧
      ∀ e ∈ es, ∃ r ∈ s.ledger, r.isOf w.id = true ∧ r.decode = .ok e := by
  have hall : ∀ r ∈ Sorting.sortBy (notAfter byKey) (s.ledger.filter (·.isOf w.id)),
      ∃ e, r.decode = .ok e := by
    intro r hr
    have hmem := (List.mem_filter.1 ((Sorting.mem_sortBy _).1 hr)).1
    obtain ⟨e, he, -⟩ := (hs.rows r hmem).decode
    exact ⟨e, he⟩
  obtain ⟨es, hes⟩ := exists_mapM_eq_ok hall
  refine ⟨es, ?_, fun e he => ?_⟩
  · rw [ledgerEntries, hw]
    exact hes
  · obtain ⟨r, hr, hdecode⟩ := mem_of_mapM_eq_ok hes he
    obtain ⟨hmem, hown⟩ := List.mem_filter.1 ((Sorting.mem_sortBy _).1 hr)
    exact ⟨r, hmem, hown, hdecode⟩

/-- The ledger of a wallet is read from its rows alone. -/
theorem ledgerEntries_congr {name : String} (hw : s'.wallet name = s.wallet name)
    (hledger : ∀ w, s.wallet name = .ok w →
      s'.ledger.filter (·.isOf w.id) = s.ledger.filter (·.isOf w.id)) :
    s'.ledgerEntries name = s.ledgerEntries name := by
  unfold ledgerEntries
  rw [hw]
  cases hcase : s.wallet name with
  | error e => rfl
  | ok w =>
    have hfilter := hledger w hcase
    show (Sorting.sortBy _ (s'.ledger.filter (·.isOf w.id))).mapM _ =
      (Sorting.sortBy _ (s.ledger.filter (·.isOf w.id))).mapM _
    rw [hfilter]

/-- A rollback restores the rows of a settled wallet and their payments, however much was done above
the height. -/
theorem undo_of_above (ha : s.Anchored) (ho : s.OneRowPerOutput)
    (hsettled : s.SettledBy wallet bound) (hat : t.Anchored) (hot : t.OneRowPerOutput)
    (habove : Above wallet bound s t) :
    (t.undoAbove wallet bound).ledger.filter (·.isOf wallet) = s.ledger.filter (·.isOf wallet) ∧
      ∀ r ∈ s.ledger, r.isOf wallet = true → ∀ o : OutPoint, o.txid.bytes = r.key.txid →
        o.vout = r.key.vout → (t.undoAbove wallet bound).paymentsFor o = s.paymentsFor o := by
  have hrows : (t.undoAbove wallet bound).ledger.filter (·.isOf wallet) =
      s.ledger.filter (·.isOf wallet) := by
    rw [filter_undoAbove, habove.below, hsettled.below_eq]
  refine ⟨hrows, fun r hr hown o htxid hvout => ?_⟩
  have hmem : r ∈ (t.undoAbove wallet bound).ledger := by
    have hfilter := List.mem_filter.2 ⟨hr, hown⟩
    rw [← hrows] at hfilter
    exact (List.mem_filter.1 hfilter).1
  obtain ⟨hat', hcarried⟩ := carried_of_undoAbove hat hot wallet bound
  have hot' : (t.undoAbove wallet bound).OneRowPerOutput := oneRow_of_clear rfl _ hot
  have hpaid : (t.undoAbove wallet bound).paid r.source = s.paid r.source := by
    -- an unspent row has no payments on either side, a spent one keeps its own
    rcases (hsettled r hr hown).spend_cases with hspend | hspend
    · have hnone : r.spend.txid = none := by
        rw [hspend]
        rfl
      rw [hat'.paid_of_unspent hot' hmem hnone, ha.paid_of_unspent ho hr hnone]
    · obtain ⟨-, hfrozen⟩ := habove.frozen r hr (hsettled r hr hown).isConfirmed hspend
      rcases hcarried r hmem with ⟨hblank, -⟩ | ⟨-, hkept⟩
      · rw [hblank] at hspend
        cases hspend
      · rw [hkept, hfrozen]
  rw [paymentsFor_eq hat' hot' hmem htxid hvout, paymentsFor_eq ha ho hr htxid hvout, hpaid]

end Store

/-! ## Runs of blocks -/

/-- Blocks that follow a block, one after another. -/
def Linked : BlockRef → List PlacedBlock → Prop
  | _, [] => True
  | tip, placed :: rest =>
    placed.height.toNat = tip.height.toNat + 1 ∧ placed.block.prev = tip.hash ∧
      Linked placed.ref rest

namespace Indexer

open Store

variable {ix ix' : Indexer} {name : String} {row : WalletRow} {tip : BlockRef}
variable {hashes : List Hash256} {blocks : List (PlacedBlock × ChainView)} {states : List Indexer}

/-- Processes blocks one by one, each with the chain it is handed, and lists the states after
them. -/
def processEach (ix : Indexer) : List (PlacedBlock × ChainView) → Result (List Indexer)
  | [] => .ok []
  | (placed, chain) :: rest => do
    let (_, next) ← ix.processBlock placed chain
    let states ← next.processEach rest
    return next :: states

/-- A wallet is in scope, synced to a tip, and settled up to it. -/
structure Tracks (ix : Indexer) (name : String) (row : WalletRow) (tip : BlockRef)
    (hashes : List Hash256) : Prop where
  wellFormed : ix.store.WellFormed
  anchored : ix.store.Anchored
  oneRow : ix.store.OneRowPerOutput
  found : ix.store.walletRow? name = some (row.withTip tip hashes)
  settled : ix.store.SettledBy row.id tip.height
  scope : ix.config.mode.walletName.all (· == name) = true

/-- **One block** takes a wallet that tracks its parent along, and works above every height below. -/
theorem Tracks.processBlock {placed : PlacedBlock} {chain : ChainView} {outcome : BatchOutcome}
    (h : ix.Tracks name row tip hashes) (hheight : tip.height ≤ placed.height)
    (hprev : placed.block.prev = tip.hash) (ho' : ix'.store.OneRowPerOutput)
    (hblock : ix.processBlock placed chain = .ok (outcome, ix')) :
    ∃ locator, BlockLocator.build placed.ref chain = .ok locator ∧
      ix'.Tracks name row placed.ref locator.hashes ∧
      ∀ bound < placed.height, Above row.id bound ix.store ix'.store := by
  obtain ⟨happly, hconfig⟩ := applyBatch_of_processBatch hblock
  have hwrites := writes_applyBatch (Batch.isAt_ofBlock placed) happly
  have hsettled : ix.store.SettledBy row.id placed.ref.height :=
    fun r hr hown => (h.settled r hr hown).mono hheight
  obtain ⟨hsettled', habove⟩ := above_of_writes h.wellFormed h.anchored ho' hsettled hwrites
  have hname : row.name = name := by simpa [WalletRow.withTip] using List.find?_some h.found
  -- the wallet has the tip that the header asks for
  have hcovers : (Scope.ofBatch ix.config (some ⟨placed.block.prev, placed.ref⟩)).covers
      (row.withTip tip hashes) = true := by
    simp only [Scope.covers, Scope.ofBatch, Option.map_some, Option.all_some, hname, hprev,
      WalletRow.withTip, beq_self_eq_true, Bool.and_true, h.scope]
  obtain ⟨locator, hbuild, hfound⟩ :=
    walletRow?_of_covers (moves_applyBatch h.wellFormed happly) h.found hcovers
  refine ⟨locator, hbuild, ⟨?_, ?_, ho', hfound, hsettled', hconfig ▸ h.scope⟩, habove⟩
  · exact wellFormed_of_writes h.wellFormed hwrites
  · exact anchored_of_writes h.wellFormed h.anchored ho' hwrites

/-- A run of blocks takes the wallet to its last block and works above every height it starts
from. -/
theorem Tracks.processEach (h : ix.Tracks name row tip hashes)
    (hlink : Linked tip (blocks.map (·.1))) (hrun : ix.processEach blocks = .ok states)
    (ho : ∀ j ∈ states, j.store.OneRowPerOutput) :
    ∃ tip' hashes', (states.getLastD ix).Tracks name row tip' hashes' ∧
      tip.height ≤ tip'.height ∧ (blocks ≠ [] → tip.height < tip'.height) ∧
      ∀ bound ≤ tip.height, Above row.id bound ix.store (states.getLastD ix).store := by
  induction blocks generalizing ix tip hashes states with
  | nil =>
    cases hrun
    exact ⟨tip, hashes, h, UInt32.le_refl _, fun hne => absurd rfl hne, fun _ _ => .refl _⟩
  | cons block rest ih =>
    obtain ⟨placed, chain⟩ := block
    obtain ⟨⟨outcome, next⟩, hblock, hrun⟩ := bind_eq_ok_iff.1 hrun
    obtain ⟨states', hrest, hrun⟩ := bind_eq_ok_iff.1 hrun
    cases hrun
    obtain ⟨hheight, hprev, hlink'⟩ := hlink
    have hlt : tip.height < placed.height := by
      rw [UInt32.lt_iff_toNat_lt]
      exact Nat.lt_of_lt_of_eq (Nat.lt_succ_self _) hheight.symm
    obtain ⟨locator, -, hnext, habove⟩ := h.processBlock (UInt32.le_of_lt hlt) hprev
      (ho next List.mem_cons_self) hblock
    obtain ⟨tip', hashes', hlast, hle, -, hrestabove⟩ :=
      ih hnext hlink' hrest fun j hj => ho j (List.mem_cons_of_mem _ hj)
    have hlt' : tip.height < tip'.height := UInt32.lt_of_lt_of_le hlt hle
    rw [List.getLastD_cons]
    refine ⟨tip', hashes', hlast, UInt32.le_of_lt hlt', fun _ => hlt', fun bound hbound => ?_⟩
    have hbound' : bound < placed.height := UInt32.lt_of_le_of_lt hbound hlt
    exact (habove bound hbound').trans (hrestabove bound (UInt32.le_of_lt hbound'))

/-- A run of blocks, cut after one of them. -/
theorem Tracks.processEach_cut {k : Nat} {placed : PlacedBlock} {view : ChainView}
    (h : ix.Tracks name row tip hashes) (hlink : Linked tip (blocks.map (·.1)))
    (hrun : ix.processEach blocks = .ok states)
    (ho : ∀ j ∈ states, j.store.OneRowPerOutput) (hk : blocks[k]? = some (placed, view)) :
    ∃ mid locator rest, states[k]? = some mid ∧ BlockLocator.build placed.ref view = .ok locator ∧
      mid.Tracks name row placed.ref locator.hashes ∧
      Linked placed.ref ((blocks.drop (k + 1)).map (·.1)) ∧
      mid.processEach (blocks.drop (k + 1)) = .ok rest ∧ rest.getLastD mid = states.getLastD ix ∧
      ∀ j ∈ rest, j ∈ states := by
  induction blocks generalizing ix tip hashes states k with
  | nil => cases hk
  | cons block blocks ih =>
    obtain ⟨first, chain⟩ := block
    obtain ⟨⟨outcome, next⟩, hblock, hrun⟩ := bind_eq_ok_iff.1 hrun
    obtain ⟨states', hrest, hrun⟩ := bind_eq_ok_iff.1 hrun
    cases hrun
    obtain ⟨hheight, hprev, hlink'⟩ := hlink
    have hle : tip.height ≤ first.height := by
      rw [UInt32.le_iff_toNat_le]
      exact Nat.le_of_lt (Nat.lt_of_lt_of_eq (Nat.lt_succ_self _) hheight.symm)
    obtain ⟨locator, hbuild, hnext, -⟩ :=
      h.processBlock hle hprev (ho next List.mem_cons_self) hblock
    cases k with
    | zero =>
      cases hk
      refine ⟨next, locator, states', rfl, hbuild, hnext, hlink', hrest, ?_, ?_⟩
      · rw [List.getLastD_cons]
      · intro j hj
        exact List.mem_cons_of_mem _ hj
    | succ k =>
      obtain ⟨mid, loc, rest, hmid, hloc, htracks, hlinked, hmidrun, hlast, hsub⟩ :=
        ih hnext hlink' hrest (fun j hj => ho j (List.mem_cons_of_mem _ hj)) hk
      refine ⟨mid, loc, rest, hmid, hloc, htracks, hlinked, hmidrun, ?_, fun j hj => ?_⟩
      · rw [List.getLastD_cons]
        exact hlast
      · exact List.mem_cons_of_mem _ (hsub j hj)

/-- The row of a wallet that has a tip holds that tip and the locator of a chain. -/
theorem row_of_tip {s : Store} {w : Wallet} (hs : s.WellFormed) (hw : s.wallet name = .ok w)
    (htip : w.tip = some tip) : ∃ (row : WalletRow) (hashes : List Hash256),
      s.walletRow? name = some (row.withTip tip hashes) ∧ row.id = w.id := by
  obtain ⟨row, hmem, hrow, -, hid, hdecode⟩ := row_of_wallet hw
  rcases (hs.synced row hmem).eq_withTip with ⟨hheight, -, -⟩ | ⟨tip', chain, locator, -, hsame⟩
  · rw [height_of_decode hdecode, htip] at hheight
    cases hheight
  · have hread := decode_withTip row tip' locator.hashes
    rw [← hsame, hdecode] at hread
    cases hread
    cases htip
    exact ⟨row, locator.hashes, hrow.trans (congrArg some hsame), rfl⟩

theorem rollback_eq {w : Wallet} {target : UInt32} {chain : ChainView} {moved : Bool}
    {store : Store} (hw : ix.store.wallet name = .ok w)
    (h : ix.store.rollback w target chain = .ok (moved, store)) :
    ix.rollback name target chain = .ok (moved, { ix with store := store }) :=
  bind_eq_ok_iff.2 ⟨w, hw, bind_eq_ok_iff.2 ⟨_, h, rfl⟩⟩

/-- Rolling a wallet back to a block it tracked before it went on. -/
theorem Tracks.rollback {mid last : Indexer} {ref tip' : BlockRef} {locator : BlockLocator}
    {hashes' : List Hash256} {chain : ChainView} (hmid : mid.Tracks name row ref locator.hashes)
    (hlast : last.Tracks name row tip' hashes') (hlt : ref.height < tip'.height)
    (habove : Above row.id ref.height mid.store last.store)
    (hat : chain ref.height = some ref.hash) (hbuild : BlockLocator.build ref chain = .ok locator) :
    ∃ ix', last.rollback name ref.height chain = .ok (true, ix') ∧
      ix'.store.wallet name = mid.store.wallet name ∧
      ix'.store.ledgerEntries name = mid.store.ledgerEntries name ∧
      (∀ r ∈ mid.store.ledger, r.isOf row.id = true → ∀ o : OutPoint, o.txid.bytes = r.key.txid →
        o.vout = r.key.vout → ix'.store.paymentsFor o = mid.store.paymentsFor o) ∧
      ∀ a ∈ mid.store.addresses, a ∈ ix'.store.addresses := by
  have hwallet := (wallet_of_walletRow? hlast.found).trans (decode_withTip row tip' hashes')
  have hmidwallet := (wallet_of_walletRow? hmid.found).trans (decode_withTip row ref locator.hashes)
  obtain ⟨hrows, hpayments⟩ := undo_of_above hmid.anchored hmid.oneRow hmid.settled hlast.anchored
    hlast.oneRow habove
  have hany : (some tip').any (ref.height < ·.height) = true := by simpa using hlt
  have hrollback := rollback_eq hwallet (rollback_of_above hany hat hbuild)
  set undone := (last.store.undoAbove row.id ref.height).setTip row.id ref locator.hashes
  have hfound : undone.walletRow? name = some (row.withTip ref locator.hashes) := by
    have hlastfound : (last.store.undoAbove row.id ref.height).walletRow? name =
        some (row.withTip tip' hashes') := hlast.found
    rw [walletRow?_setTip, hlastfound, Option.map_some]
    exact congrArg some (if_pos rfl)
  have hsame : undone.wallet name = mid.store.wallet name := by
    rw [wallet_of_walletRow? hfound, wallet_of_walletRow? hmid.found]
  refine ⟨_, hrollback, hsame, ?_, hpayments, habove.addresses⟩
  refine ledgerEntries_congr hsame fun w hw => ?_
  rw [hmidwallet] at hw
  cases hw
  exact hrows

end Indexer

namespace Sample

/-- The block that receives. -/
def paying : PlacedBlock := ⟨1, ⟨1, Hash256.zero, Hash256.zero, 9, 0, 0, [pay]⟩⟩

/-- The block that spends. -/
def spender : PlacedBlock := ⟨2, ⟨1, paying.block.hash, Hash256.zero, 10, 0, 0, [spend]⟩⟩

/-- The chain that both blocks extend. -/
def view : ChainView := fun height =>
  if height = 0 then some Hash256.zero else if height = 1 then some paying.block.hash else none

/-- What was received, with how it is spent. -/
def entry (spend : Option SpendInfo) : LedgerEntry :=
  ⟨⟨⟨1, 0, 0⟩, 0⟩, receiving.toKeyHash, receiving.toKeyHash, ⟨pay.txid, 0⟩, 5000, some paying.ref, 9,
    false, spend⟩

/-- What came back as change. -/
def changeEntry : LedgerEntry :=
  ⟨⟨⟨1, 0, 1⟩, 0⟩, change.toKeyHash, change.toKeyHash, ⟨spend.txid, 1⟩, 1500, some spender.ref, 10,
    false, none⟩

theorem processEach_blocks :
    ((opened unbuffered).processEach [(paying, view), (spender, view)]).map
      (·.map fun ix => (decide ix.store.OneRowPerOutput, ix.store.ledgerEntries "savings")) =
    .ok [(true, .ok [entry none]),
      (true, .ok [entry (some ⟨spend.txid, 10, some spender.ref, false, 4500⟩), changeEntry])] := by
  decide +kernel

end Sample

namespace Indexer

open Store

variable {ix : Indexer} {name : String} {tip : BlockRef}
variable {blocks : List (PlacedBlock × ChainView)} {states : List Indexer}

/-- **A rollback undoes the blocks above its height.** After any number of blocks, rolling a wallet
back to one of them answers as right after that block. -/
theorem rollback_undoes_blocks {calls : List Call} {past : List Indexer}
    (hist : History calls (ix :: past)) (hrows : ∀ j ∈ ix :: past, j.store.OneRowPerOutput)
    {w : Wallet} (hw : ix.store.wallet name = .ok w) (htip : w.tip = some tip)
    (hsettled : ix.store.SettledBy w.id tip.height)
    (hscope : ∀ only, ix.config.mode = .singleWallet only → only = name)
    (hlink : Linked tip (blocks.map (·.1))) (hrun : ix.processEach blocks = .ok states)
    (hrows' : ∀ j ∈ states, j.store.OneRowPerOutput)
    {k : Nat} {placed : PlacedBlock} {view chain : ChainView}
    (hk : blocks[k]? = some (placed, view))
    (hat : chain placed.height = some placed.block.hash)
    (hbelow : ∀ height < placed.height, chain height = view height) :
    ∃ mid, states[k]? = some mid ∧ ∃ moved ix',
      (states.getLastD ix).rollback name placed.height chain = .ok (moved, ix') ∧
      (∃ es, mid.store.ledgerEntries name = .ok es ∧ ix'.store.ledgerEntries name = .ok es ∧
        ∀ e ∈ es, ∃ ps, mid.store.paymentsFor e.outpoint = .ok ps ∧
          ix'.store.paymentsFor e.outpoint = .ok ps) ∧
      (∃ w', w'.tip = some placed.ref ∧ mid.store.wallet name = .ok w' ∧
        ix'.store.wallet name = .ok w') ∧
      ∀ a ∈ mid.store.addresses, a ∈ ix'.store.addresses := by
  have hwf := wellFormed_of_history hist ix List.mem_cons_self ix.network
  have hanch := anchored_of_history hist hrows ix List.mem_cons_self ix.network
  rw [storeOf_network] at hwf hanch
  obtain ⟨row, hashes, hfound, hid⟩ := row_of_tip hwf hw htip
  have hnamed : ix.config.mode.walletName.all (· == name) = true := by
    cases hmode : ix.config.mode with
    | allWallets => rfl
    | singleWallet only => exact beq_iff_eq.2 (hscope only hmode)
  have htracks : ix.Tracks name row tip hashes :=
    ⟨hwf, hanch, hrows ix List.mem_cons_self, hfound, hid ▸ hsettled, hnamed⟩
  obtain ⟨mid, locator, rest, hmid, hbuild, hmidtracks, hmidlink, hmidrun, hlast, hsub⟩ :=
    htracks.processEach_cut hlink hrun hrows' hk
  have hmidwallet := (wallet_of_walletRow? hmidtracks.found).trans
    (decode_withTip row placed.ref locator.hashes)
  obtain ⟨es, hes, hread⟩ := exists_ledgerEntries hmidtracks.wellFormed hmidwallet
  obtain ⟨tip', hashes', hlasttracks, -, hlt, habove⟩ :=
    hmidtracks.processEach hmidlink hmidrun fun j hj => hrows' j (hsub j hj)
  rw [hlast] at hlasttracks habove
  refine ⟨mid, hmid, ?_⟩
  by_cases hnil : blocks.drop (k + 1) = []
  · -- no block came later, so there is nothing to take back
    rw [hnil] at hmidrun
    cases hmidrun
    rw [List.getLastD_nil] at hlast
    rw [← hlast]
    refine ⟨false, mid, ?_, ⟨es, hes, hes, fun e _ => ?_⟩, ⟨_, rfl, hmidwallet, hmidwallet⟩,
      fun a ha => ha⟩
    · have hany : (some placed.ref).any (placed.height < ·.height) = false := by
        simp [PlacedBlock.ref]
      exact rollback_eq hmidwallet (rollback_of_not_above chain hany)
    · obtain ⟨ps, hps⟩ := exists_paymentsFor hmidtracks.wellFormed e.outpoint
      exact ⟨ps, hps, hps⟩
  · have hbuild' : BlockLocator.build placed.ref chain = .ok locator := by
      rw [BlockLocator.build_congr hbelow, hbuild]
    obtain ⟨ix', hrollback, hwallet, hledger, hpayments, haddresses⟩ :=
      hmidtracks.rollback hlasttracks (hlt hnil) (habove _ (UInt32.le_refl _)) hat hbuild'
    refine ⟨true, ix', hrollback, ⟨es, hes, hledger.trans hes, fun e he => ?_⟩,
      ⟨_, rfl, hmidwallet, hwallet.trans hmidwallet⟩, haddresses⟩
    obtain ⟨ps, hps⟩ := exists_paymentsFor hmidtracks.wellFormed e.outpoint
    obtain ⟨r, hr, hown, hdecode⟩ := hread e he
    obtain ⟨e', he', htxid, hvout, -⟩ := (hmidtracks.wellFormed.rows r hr).decode
    rw [hdecode] at he'
    cases he'
    exact ⟨ps, hps, (hpayments r hr hown e.outpoint htxid hvout).trans hps⟩

/-- A spend is undone along with its block, and what it spent is as right after its own block. -/
theorem rollback_undoes_blocks_spent : ∃ calls past states,
    History calls (Sample.opened Sample.unbuffered :: past) ∧
    (Sample.opened Sample.unbuffered).processEach
      [(Sample.paying, Sample.view), (Sample.spender, Sample.view)] = .ok states ∧
    (∀ j ∈ states, j.store.OneRowPerOutput) ∧
    ∃ moved ix', (states.getLastD (Sample.opened Sample.unbuffered)).rollback "savings" 1 Sample.view =
        .ok (moved, ix') ∧
      ix'.store.ledgerEntries "savings" = .ok [Sample.entry none] := by
  obtain ⟨past, hist, hpast⟩ := Sample.history Sample.unbuffered
  obtain ⟨states, hrun, hstates⟩ := map_eq_ok_iff.1 Sample.processEach_blocks
  obtain ⟨mid, rest, rfl, hmid, hrest⟩ := List.map_eq_cons_iff.1 hstates
  obtain ⟨last, rest, rfl, hlast, hnil⟩ := List.map_eq_cons_iff.1 hrest
  obtain rfl := List.map_eq_nil_iff.1 hnil
  rw [Prod.mk.injEq, decide_eq_true_eq] at hmid hlast
  have hrows : ∀ j ∈ Sample.opened Sample.unbuffered :: past, j.store.OneRowPerOutput :=
    List.forall_mem_cons.2 ⟨oneRow_of_nil rfl, fun j hj => oneRow_of_nil (hpast j hj)⟩
  have hrows' : ∀ j ∈ [mid, last], j.store.OneRowPerOutput :=
    List.forall_mem_cons.2 ⟨hmid.1, List.forall_mem_singleton.2 hlast.1⟩
  have hw : (Sample.opened Sample.unbuffered).store.wallet "savings" =
      .ok ⟨1, "savings", some ⟨0, Hash256.zero⟩, [Hash256.zero], true, "", "", 0⟩ := by
    decide +kernel
  have hsettled : (Sample.opened Sample.unbuffered).store.SettledBy 1 0 := by
    intro r hr
    cases hr
  have hlink : Linked ⟨0, Hash256.zero⟩
      ([(Sample.paying, Sample.view), (Sample.spender, Sample.view)].map (·.1)) :=
    ⟨rfl, rfl, rfl, rfl, trivial⟩
  have hscope : ∀ only, (Sample.opened Sample.unbuffered).config.mode = .singleWallet only →
      only = "savings" := by
    intro only hmode
    cases hmode
  have hat : Sample.view Sample.paying.height = some Sample.paying.block.hash := rfl
  obtain ⟨mid', hmid', moved, ix', hrollback, ⟨es, hes, hes', -⟩, -, -⟩ :=
    rollback_undoes_blocks (k := 0) hist hrows hw rfl hsettled hscope hlink hrun hrows' rfl
      hat fun _ _ => rfl
  cases hmid'
  refine ⟨_, past, _, hist, hrun, hrows', moved, ix', hrollback, ?_⟩
  rw [hes', ← hes, hmid.2]

end Indexer

end WalletLedger
