import WalletLedger.Proofs.Columns
import WalletLedger.Proofs.Confirmed

/-!
# Rolling back in steps

A rollback cuts the ledger of its wallet at a height: the entries above it go, and so do the spends above
it of the entries that stay. The payments that go are told by the rows as they were before the cut, so a
second cut does not see the rows that the first one changed. Still, a cut at a height and another at a
lower one are together the lower cut: what the first one hides from the second it has dealt with.

* `LedgerEntry.cutAt`: the entries that a rollback leaves.
* `Store.undoAbove_undoAbove`: two cuts are the lower one.
* `Store.ledgerOf_undoAbove`: what a wallet shows after a cut.
* `Indexer.rollback_exact`: what a rollback answers and leaves, at once or in two steps.
-/

namespace WalletLedger

/-- The entry without its spend, if that is in a block above a height. -/
def LedgerEntry.clearAbove (bound : UInt32) (e : LedgerEntry) : LedgerEntry :=
  { e with spend := e.spend.filter fun sp => sp.block.all (·.height ≤ bound) }

/-- Entries as a rollback to a height leaves them: those that are unconfirmed or in a block up to the
height, each with its spend if that is unconfirmed or in such a block. -/
def LedgerEntry.cutAt (bound : UInt32) (es : List LedgerEntry) : List LedgerEntry :=
  (es.filter fun e => e.block.all (·.height ≤ bound)).map (·.clearAbove bound)

namespace LedgerRow

/-- The row without its spend, if that is above a height. -/
def clearAbove (bound : UInt32) (r : LedgerRow) : LedgerRow :=
  if isAbove bound r.spend.height then { r with spend := .unspent } else r

/-- Whether a rollback of a wallet to a height deletes a row. -/
def isCut (wallet : Int) (bound : UInt32) (r : LedgerRow) : Bool :=
  r.isOf wallet && isAbove bound r.deposit.height

/-- Whether a rollback of a wallet to a height deletes or clears a row. -/
def isTouched (wallet : Int) (bound : UInt32) (r : LedgerRow) : Bool :=
  r.isOf wallet && (isAbove bound r.spend.height || isAbove bound r.deposit.height)

/-- What a rollback of a wallet to a height makes of a row that it does not delete. -/
def rewind (wallet : Int) (bound : UInt32) (r : LedgerRow) : LedgerRow :=
  if r.isOf wallet then r.clearAbove bound else r

end LedgerRow

/-! ## Heights -/

section

variable {low high bound : UInt32}

/-- What is above a height is above every lower one. -/
theorem isAbove_of_le_bound (hle : low ≤ high) {height : Option UInt32}
    (h : isAbove high height = true) : isAbove low height = true := by
  unfold isAbove at h ⊢
  cases height with
  | none => cases h
  | some height =>
    rw [Option.any_some, decide_eq_true_eq] at h ⊢
    exact UInt32.lt_of_le_of_lt hle h

/-- A tip above a height is above every lower one. -/
theorem any_above_of_le (hle : low ≤ high) {tip : Option BlockRef}
    (h : tip.any (high < ·.height) = true) : tip.any (low < ·.height) = true := by
  cases tip with
  | none => cases h
  | some tip =>
    have hbound : isAbove high (some tip.height) = true := h
    exact isAbove_of_le_bound hle hbound

theorem not_any_above (block : Option BlockRef) :
    (!block.any (bound < ·.height)) = block.all (·.height ≤ bound) := by
  cases block with
  | none => rfl
  | some block => simp [← UInt32.not_lt]

end

/-! ## Rows and entries -/

/-- The columns of a spend are cleared where the spend is dropped. -/
theorem SpendSide.ofInfo_filter (bound : UInt32) (spend : Option SpendInfo) :
    ofInfo (spend.filter fun sp => sp.block.all (·.height ≤ bound)) =
      if isAbove bound (ofInfo spend).height then .unspent else ofInfo spend := by
  cases spend with
  | none => rfl
  | some sp =>
    have hheight : isAbove bound (ofInfo (some sp)).height = sp.block.any (bound < ·.height) := by
      cases h : sp.block <;> simp [ofInfo, isAbove, h]
    rw [hheight, Option.filter_some, ← not_any_above]
    cases sp.block.any (bound < ·.height) <;> rfl

namespace LedgerRow

variable {wallet : Int} {low high bound : UInt32} (r : LedgerRow)

theorem spend_clearAbove (bound : UInt32) :
    (r.clearAbove bound).spend = if isAbove bound r.spend.height then .unspent else r.spend := by
  unfold clearAbove
  split <;> rfl

theorem key_clearAbove (bound : UInt32) :
    (r.clearAbove bound).key = r.key ∧ (r.clearAbove bound).deposit = r.deposit := by
  unfold clearAbove
  split <;> exact ⟨rfl, rfl⟩

theorem key_rewind (wallet : Int) (bound : UInt32) :
    (r.rewind wallet bound).key = r.key ∧ (r.rewind wallet bound).deposit = r.deposit := by
  unfold rewind
  split
  · exact r.key_clearAbove bound
  · exact ⟨rfl, rfl⟩

theorem source_rewind : (r.rewind wallet bound).source = r.source := by
  rw [source, source, (r.key_rewind wallet bound).1, (r.key_rewind wallet bound).2]

theorem isOf_rewind {other : Int} : (r.rewind wallet bound).isOf other = r.isOf other := by
  rw [isOf, isOf, (r.key_rewind wallet bound).1]

theorem isCut_rewind : (r.rewind wallet high).isCut wallet low = r.isCut wallet low := by
  rw [isCut, isCut, isOf_rewind, (r.key_rewind wallet high).2]

theorem clearAbove_clearAbove (hle : low ≤ high) :
    (r.clearAbove high).clearAbove low = r.clearAbove low := by
  by_cases h : isAbove high r.spend.height = true
  · have hlow := isAbove_of_le_bound hle h
    have hcleared : r.clearAbove high = { r with spend := .unspent } := if_pos h
    have hcleared' : r.clearAbove low = { r with spend := .unspent } := if_pos hlow
    rw [hcleared, hcleared']
    rfl
  · have hkept : r.clearAbove high = r := if_neg h
    rw [hkept]

theorem rewind_rewind (hle : low ≤ high) :
    (r.rewind wallet high).rewind wallet low = r.rewind wallet low := by
  unfold rewind
  split
  · rename_i hown
    rw [isOf, (r.key_clearAbove high).1, ← isOf, if_pos hown, r.clearAbove_clearAbove hle]
  · rfl

/-- The lower cut keeps less. -/
theorem not_isCut_and (hle : low ≤ high) :
    (!r.isCut wallet low && !r.isCut wallet high) = !r.isCut wallet low := by
  cases h : r.isCut wallet high with
  | false => rw [Bool.not_false, Bool.and_true]
  | true =>
    obtain ⟨hown, habove⟩ := Bool.and_eq_true_iff.1 h
    have hlow : r.isCut wallet low = true :=
      Bool.and_eq_true_iff.2 ⟨hown, isAbove_of_le_bound hle habove⟩
    rw [hlow]
    rfl

/-- A row that is touched by the lower cut is touched by the higher one, or stays and is then touched. -/
theorem isTouched_rewind (hle : low ≤ high) : (r.isTouched wallet high ||
    (!r.isCut wallet high && (r.rewind wallet high).isTouched wallet low)) = r.isTouched wallet low := by
  cases hown : r.isOf wallet with
  | false => simp only [isTouched, isOf_rewind, hown, Bool.false_and, Bool.and_false, Bool.or_false]
  | true =>
    have hrewind : r.rewind wallet high = r.clearAbove high := if_pos hown
    simp only [isTouched, isCut, isOf_rewind, hown, Bool.true_and]
    rw [hrewind, (r.key_clearAbove high).2, r.spend_clearAbove]
    cases hspend : isAbove high r.spend.height with
    | true => rw [isAbove_of_le_bound hle hspend, Bool.true_or, Bool.true_or, Bool.true_or]
    | false =>
      cases hdeposit : isAbove high r.deposit.height with
      | true => simp only [isAbove_of_le_bound hle hdeposit, Bool.or_true, Bool.true_or]
      | false => rfl

end LedgerRow

namespace LedgerEntry

/-- Clearing the row of an entry clears the entry. -/
theorem clearAbove_row (bound : UInt32) (e : LedgerEntry) :
    e.row.clearAbove bound = (e.clearAbove bound).row := by
  have hspend := SpendSide.ofInfo_filter bound e.spend
  unfold LedgerRow.clearAbove clearAbove row
  simp only
  rw [hspend]
  split <;> rfl

/-- Cutting the rows of entries cuts the entries. -/
theorem map_row_cutAt (bound : UInt32) (es : List LedgerEntry) :
    ((es.map row).filter fun r => !isAbove bound r.deposit.height).map (·.clearAbove bound) =
      (cutAt bound es).map row := by
  have htest : ((fun r : LedgerRow => !isAbove bound r.deposit.height) ∘ row) =
      fun e => e.block.all (·.height ≤ bound) := by
    funext e
    rw [Function.comp_apply, e.testsAs_row.above, not_any_above]
  rw [List.filter_map, htest, cutAt, List.map_map, List.map_map]
  exact List.map_congr_left fun e _ => e.clearAbove_row bound

end LedgerEntry

namespace Store

variable {s : Store} {wallet : Int} {low high bound : UInt32}

/-! ## Two cuts -/

theorem undoAbove_eq (s : Store) (wallet : Int) (bound : UInt32) : s.undoAbove wallet bound =
    { s with
      payments := s.paymentsWithout (·.isTouched wallet bound)
      ledger := (s.ledger.filter fun r => !r.isCut wallet bound).map (·.rewind wallet bound) } := by
  have hrewind : (fun r : LedgerRow =>
      if r.isOf wallet && isAbove bound r.spend.height then { r with spend := .unspent } else r) =
        (·.rewind wallet bound) := by
    funext r
    unfold LedgerRow.rewind LedgerRow.clearAbove
    cases r.isOf wallet <;> rfl
  rw [← hrewind]
  rfl

/-- Payments are dropped in two steps by the rows that either step names. The second one sees the rows
that the first one kept, and as it changed them. -/
theorem paymentsWithout_twice {rows rows' keep : LedgerRow → Bool} {f : LedgerRow → LedgerRow}
    (hf : ∀ r, (f r).source = r.source) (s : Store) :
    paymentsWithout { s with
        payments := s.paymentsWithout rows
        ledger := (s.ledger.filter keep).map f } rows' =
      s.paymentsWithout fun r => rows r || (keep r && rows' (f r)) := by
  unfold paymentsWithout
  rw [List.filter_filter]
  refine List.filter_congr fun p _ => ?_
  simp only
  rw [List.any_map, List.any_filter, ← Bool.not_or, Bool.or_comm]
  congr 1
  induction s.ledger with
  | nil => rfl
  | cons r rs ih =>
    rw [List.any_cons, List.any_cons, List.any_cons, ← ih, Function.comp_apply, hf]
    cases rows r <;> cases r.source == p.source <;> simp [Bool.or_left_comm]

/-- **Two cuts are the lower one.** -/
theorem undoAbove_undoAbove (hle : low ≤ high) :
    (s.undoAbove wallet high).undoAbove wallet low = s.undoAbove wallet low := by
  have hpayments : (fun r : LedgerRow => r.isTouched wallet high ||
      (!r.isCut wallet high && (r.rewind wallet high).isTouched wallet low)) =
        (·.isTouched wallet low) := funext fun r => r.isTouched_rewind hle
  have hledger : (((s.ledger.filter fun r => !r.isCut wallet high).map (·.rewind wallet high)).filter
      fun r => !r.isCut wallet low).map (·.rewind wallet low) =
        (s.ledger.filter fun r => !r.isCut wallet low).map (·.rewind wallet low) := by
    rw [filter_map_comm fun r _ => by rw [r.isCut_rewind], List.filter_filter, List.map_map]
    have hcut : (fun r : LedgerRow => !r.isCut wallet low && !r.isCut wallet high) =
        fun r => !r.isCut wallet low := funext fun r => r.not_isCut_and hle
    rw [hcut]
    exact List.map_congr_left fun r _ => r.rewind_rewind hle
  rw [s.undoAbove_eq, undoAbove_eq, s.undoAbove_eq, paymentsWithout_twice fun r => r.source_rewind]
  simp only
  rw [hpayments, hledger]

/-! ## What is shown -/

/-- **A cut is shown as one.** -/
theorem ledgerOf_undoAbove (hs : s.WellFormed) (wallet : Int) (bound : UInt32) :
    ∃ es, s.ledgerOf wallet = .ok es ∧
      (s.undoAbove wallet bound).ledgerOf wallet = .ok (LedgerEntry.cutAt bound es) := by
  obtain ⟨es, hread, hes⟩ := hs.exists_entries byKey (·.isOf wallet)
  refine ⟨es, hread, @entries_of_rows _ byKey (·.isOf wallet) _ ?_⟩
  have horder : Std.TransCmp byKey := transCmp_comap LedgerRow.key
  have hkey : ∀ a b : LedgerRow, notAfter byKey (a.clearAbove bound) (b.clearAbove bound) =
      notAfter byKey a b := by
    intro a b
    rw [notAfter, byKey, (a.key_clearAbove bound).1, (b.key_clearAbove bound).1]
    rfl
  have hbelow : s.below wallet bound = ((s.ledger.filter (·.isOf wallet)).filter fun r =>
      !isAbove bound r.deposit.height).map (·.clearAbove bound) := by
    rw [List.filter_filter, below]
    simp only [Bool.and_comm]
    rfl
  calc (LedgerEntry.cutAt bound es).map LedgerEntry.row
      = ((es.map LedgerEntry.row).filter fun r => !isAbove bound r.deposit.height).map
          (·.clearAbove bound) := (LedgerEntry.map_row_cutAt bound es).symm
    _ = Sorting.sortBy (notAfter byKey) (s.below wallet bound) := by
      rw [hes, Sorting.filter_sortBy, hbelow, Sorting.sortBy_eq_insertionSort,
        Sorting.sortBy_eq_insertionSort]
      exact List.map_insertionSort _ _ _ _ fun a _ b _ => by rw [hkey]
    _ = _ := by rw [filter_undoAbove]

/-! ## Tips -/

theorem setTip_setTip (s : Store) (wallet : Int) (tip tip' : BlockRef) (hashes hashes' : List Hash256) :
    (s.setTip wallet tip hashes).setTip wallet tip' hashes' = s.setTip wallet tip' hashes' := by
  unfold setTip
  simp only [List.map_map]
  congr 1
  refine List.map_congr_left fun row _ => ?_
  rw [Function.comp_apply]
  by_cases hid : row.id = wallet
  · rw [if_pos hid, if_pos hid]
    exact if_pos hid
  · rw [if_neg hid, if_neg hid]

/-- A wallet that is moved is at the tip that it is moved to. -/
theorem wallet_setTip {name : String} {w : Wallet} (hw : s.wallet name = .ok w) (tip : BlockRef)
    (hashes : List Hash256) : ∃ w', (s.setTip w.id tip hashes).wallet name = .ok w' ∧ w'.id = w.id ∧
      w'.tip = some tip := by
  obtain ⟨row, -, hrow, -, hid, -⟩ := row_of_wallet hw
  have hfound : (s.setTip w.id tip hashes).walletRow? name = some (row.withTip tip hashes) := by
    rw [walletRow?_setTip, hrow, Option.map_some, if_pos hid]
  exact ⟨_, (wallet_of_walletRow? hfound).trans (decode_withTip row tip hashes), hid, rfl⟩

end Store

namespace Indexer

open Store

variable {ix : Indexer} {name : String} {w : Wallet} {low high target : UInt32} {chain : HashChain}

/-- On a chain longer than a height, there is one tip and one locator that a rollback moves to. -/
theorem exists_target (hchain : target.toNat < chain.hashes.length) :
    ∃ (tip : BlockRef) (hashes : List Hash256), tip.height = target ∧
      ∀ (ix : Indexer) (name : String) (w : Wallet), ix.store.wallet name = .ok w →
        w.tip.any (target < ·.height) = true →
        ix.rollback name target chain.view = .ok (true,
          { ix with store := (ix.store.undoAbove w.id target).setTip w.id tip hashes }) := by
  have hdef : ∀ height ≤ target, (chain.view height).isSome = true := by
    intro height hle
    have hlt : height.toNat < chain.hashes.length :=
      Nat.lt_of_le_of_lt (UInt32.le_iff_toNat_le.1 hle) hchain
    rw [HashChain.view, List.getElem?_eq_getElem hlt]
    rfl
  obtain ⟨hash, hat⟩ := Option.isSome_iff_exists.1 (hdef target (UInt32.le_refl _))
  have hbuild : ∃ locator, BlockLocator.build ⟨target, hash⟩ chain.view = .ok locator :=
    BlockLocator.exists_build hat hdef
  obtain ⟨locator, hbuild⟩ := hbuild
  refine ⟨⟨target, hash⟩, locator.hashes, rfl, fun ix name w hw habove => ?_⟩
  exact rollback_eq hw (rollback_of_above habove hat hbuild)

/-- A wallet that is not above a height stays. -/
theorem rollback_of_reached (hw : ix.store.wallet name = .ok w)
    (habove : w.tip.any (target < ·.height) = false) (chain : ChainView) :
    ix.rollback name target chain = .ok (false, ix) :=
  rollback_eq hw (rollback_of_not_above chain habove)

/-- **Two rollbacks are the lower one.** -/
theorem rollback_rollback (hw : ix.store.wallet name = .ok w) (hle : low ≤ high)
    (hchain : high.toNat < chain.hashes.length) {answer : Bool × Indexer}
    (h : ix.rollback name low chain.view = .ok answer) :
    ∃ first mid second, ix.rollback name high chain.view = .ok (first, mid) ∧
      mid.rollback name low chain.view = .ok (second, answer.2) := by
  have hlow : low.toNat < chain.hashes.length :=
    Nat.lt_of_le_of_lt (UInt32.le_iff_toNat_le.1 hle) hchain
  obtain ⟨tip, hashes, hheight, hmove⟩ := exists_target hlow
  obtain ⟨tip', hashes', hheight', hmove'⟩ := exists_target hchain
  cases hhigh : w.tip.any (high < ·.height) with
  | false =>
    -- the first one does nothing
    exact ⟨false, ix, answer.1, rollback_of_reached hw hhigh chain.view, h⟩
  | true =>
    obtain ⟨w', hw', hid, htip⟩ :=
      wallet_setTip (s := ix.store.undoAbove w.id high) hw tip' hashes'
    refine ⟨true, _, low < high, hmove' ix name w hw hhigh, ?_⟩
    by_cases hlt : low < high
    · have hmid : w'.tip.any (low < ·.height) = true := by
        rw [htip, Option.any_some, hheight', decide_eq_true hlt]
      rw [hmove ix name w hw (any_above_of_le hle hhigh)] at h
      cases h
      rw [hmove _ name w' hw' hmid, decide_eq_true hlt, hid]
      -- moving and cutting commute, so both steps come together
      have hstore : (((ix.store.undoAbove w.id high).setTip w.id tip' hashes').undoAbove w.id low).setTip
          w.id tip hashes = (ix.store.undoAbove w.id low).setTip w.id tip hashes := by
        have hcomm : ((ix.store.undoAbove w.id high).setTip w.id tip' hashes').undoAbove w.id low =
            ((ix.store.undoAbove w.id high).undoAbove w.id low).setTip w.id tip' hashes' := rfl
        rw [hcomm, undoAbove_undoAbove hle, setTip_setTip]
      rw [hstore]
    · -- the second one finds the wallet where the first one moved it
      obtain rfl := UInt32.le_antisymm hle (UInt32.not_lt.1 hlt)
      have hmid : w'.tip.any (low < ·.height) = false := by
        rw [htip, Option.any_some, hheight', decide_eq_false hlt]
      rw [hmove' ix name w hw hhigh] at h
      cases h
      rw [decide_eq_false hlt]
      exact rollback_of_reached hw' hmid chain.view

end Indexer

namespace Sample

/-- A block without transactions, on the one that spends early. -/
def idle : PlacedBlock := ⟨2, ⟨1, early.block.hash, Hash256.zero, 10, 0, 0, []⟩⟩

/-- The chain of both. -/
def ofTwo : HashChain := ⟨[Hash256.zero, early.block.hash, idle.block.hash]⟩

/-- What was received and is in no block. -/
def unminedEntry (spend : Option SpendInfo) : LedgerEntry :=
  ⟨⟨⟨1, 0, 0⟩, 0⟩, receiving.toKeyHash, receiving.toKeyHash, ⟨pay.txid, 0⟩, 5000, none, 7, false, spend⟩

/-- What came back as change. -/
def earlyChange : LedgerEntry :=
  ⟨⟨⟨1, 0, 1⟩, 0⟩, change.toKeyHash, change.toKeyHash, ⟨spend.txid, 1⟩, 1500, some early.ref, 9,
    false, none⟩

theorem perform_idle : (((opened unbuffered).perform (.processTransaction pay 7)).bind fun ix =>
    (ix.perform (.processBlock early ofTwo.view)).bind fun ix =>
      (ix.perform (.processBlock idle ofTwo.view)).map fun ix =>
        ((ix.store.wallet "savings").map (·.tip), ix.store.ledgerEntries "savings")) =
    .ok (.ok (some idle.ref),
      .ok [unminedEntry (some ⟨spend.txid, 9, some early.ref, false, 4500⟩), earlyChange]) := by
  decide +kernel

end Sample

namespace Indexer

open Store

variable {ix : Indexer} {name : String} {w : Wallet} {low high : UInt32} {chain : HashChain}

/-- **Rolling back is exact, at once or in steps.** On a chain longer than `high`, a rollback to `high`
followed by one to a lower height leaves what the latter leaves alone. The latter moves the wallet unless
it has no tip above the height; then nothing changes. Otherwise the ledger of the wallet is what it was,
cut at the height. -/
theorem rollback_exact (hreach : ix.Reachable) (hw : ix.store.wallet name = .ok w) (hle : low ≤ high)
    (hchain : high.toNat < chain.hashes.length) :
    ∃ moved ix', ix.rollback name low chain.view = .ok (moved, ix') ∧
      (∃ first mid second, ix.rollback name high chain.view = .ok (first, mid) ∧
        mid.rollback name low chain.view = .ok (second, ix')) ∧
      (moved = false ↔ ∀ tip ∈ w.tip, tip.height ≤ low) ∧
      (moved = false → ix' = ix) ∧
      (moved = true → ∃ es, ix.store.ledgerEntries name = .ok es ∧
        ix'.store.ledgerEntries name = .ok (LedgerEntry.cutAt low es)) := by
  have hlow : low.toNat < chain.hashes.length :=
    Nat.lt_of_le_of_lt (UInt32.le_iff_toNat_le.1 hle) hchain
  have htip : w.tip.any (low < ·.height) = false ↔ ∀ tip ∈ w.tip, tip.height ≤ low := by
    rw [← Bool.not_eq_true', not_any_above, Option.all_eq_true]
    simp only [decide_eq_true_eq, Option.mem_def]
  cases habove : w.tip.any (low < ·.height) with
  | false =>
    have hstay := rollback_of_reached hw habove chain.view
    refine ⟨false, ix, hstay, rollback_rollback hw hle hchain hstay, ?_, fun _ => rfl, ?_⟩
    · rw [← htip, habove]
    · intro h
      cases h
  | true =>
    obtain ⟨tip, hashes, -, hmove⟩ := exists_target hlow
    have hmoved := hmove ix name w hw habove
    refine ⟨true, _, hmoved, rollback_rollback hw hle hchain hmoved, ?_, ?_, fun _ => ?_⟩
    · rw [← htip, habove]
    · intro h
      cases h
    · obtain ⟨es, hes, hcut⟩ := ledgerOf_undoAbove hreach.wellFormed w.id low
      obtain ⟨w', hw', hid, -⟩ := wallet_setTip (s := ix.store.undoAbove w.id low) hw tip hashes
      refine ⟨es, bind_eq_ok_iff.2 ⟨w, hw, hes⟩, bind_eq_ok_iff.2 ⟨w', hw', ?_⟩⟩
      rw [hid]
      exact hcut

/-- An unconfirmed deposit stays, and loses the spend that a block held. -/
theorem rollback_exact_unmined : ∃ (ix mid ix' : Indexer) (first second : Bool), ix.Reachable ∧
    ix.rollback "savings" 0 Sample.ofTwo.view = .ok (true, ix') ∧
    ix.rollback "savings" 1 Sample.ofTwo.view = .ok (first, mid) ∧
    mid.rollback "savings" 0 Sample.ofTwo.view = .ok (second, ix') ∧
    ix.store.ledgerEntries "savings" = .ok [Sample.unminedEntry
      (some ⟨Sample.spend.txid, 9, some Sample.early.ref, false, 4500⟩), Sample.earlyChange] ∧
    ix'.store.ledgerEntries "savings" = .ok [Sample.unminedEntry none] := by
  obtain ⟨past, hist, -⟩ := Sample.history Sample.unbuffered
  obtain ⟨ix₁, hpay, hrun⟩ := bind_eq_ok_iff.1 Sample.perform_idle
  obtain ⟨ix₂, hearly, hrun⟩ := bind_eq_ok_iff.1 hrun
  obtain ⟨ix, hidle, hanswers⟩ := map_eq_ok_iff.1 hrun
  rw [Prod.mk.injEq] at hanswers
  obtain ⟨hwallet, hledger⟩ := hanswers
  obtain ⟨w, hw, htip⟩ := map_eq_ok_iff.1 hwallet
  have hopened : (Sample.opened Sample.unbuffered).Reachable := ⟨_, past, hist⟩
  have hreach : ix.Reachable := ((hopened.perform hpay).perform hearly).perform hidle
  have hle : (0 : UInt32) ≤ 1 := by decide
  have hchain : (1 : UInt32).toNat < Sample.ofTwo.hashes.length := by decide
  obtain ⟨moved, ix', hrollback, ⟨first, mid, second, hfirst, hsecond⟩, hmoved, -, hcut⟩ :=
    rollback_exact hreach hw hle hchain
  have hmove : moved = true := by
    rw [← Bool.not_eq_false, hmoved, htip]
    intro hbelow
    exact absurd (hbelow _ rfl) (by decide)
  subst hmove
  obtain ⟨es, hes, hafter⟩ := hcut rfl
  rw [hledger] at hes
  cases hes
  exact ⟨ix, mid, ix', first, second, hreach, hrollback, hfirst, hsecond, hledger, hafter⟩

end Indexer

end WalletLedger
