import WalletLedger.Proofs.Ancestor
import WalletLedger.Proofs.Heights
import WalletLedger.Proofs.Refusals

/-!
# What is stored can be read

Tip and locator are stored as bytes, and the heights of the locator are not stored at all: they are listed
anew from the tip. So a locator that is too short would be compared at no height, and any block would be
taken to lie on the wallet's history. The calls that move a tip store a hash for every height, whatever
chain they are given.

* `WalletRow.ReadAs`: a row is complete, and is read as a wallet whose locator names a block at or below
  every height.
* `Store.Readable`: no query of a store meets bytes that are no hash.
* `Indexer.stores_readable`: all of this in every state, whatever was called and refused.
-/

namespace WalletLedger

/-- A row holds the whole state of a wallet, which it is read as. -/
structure WalletRow.ReadAs (row : WalletRow) (w : Wallet) : Prop where
  decoded : row.decode = .ok w
  hash : row.hash = w.syncedHash.bytes
  /-- A locator has a hash for every height, that of the tip first. -/
  locator : ∀ tip, w.tip = some tip →
    w.locator.length = (locatorHeights tip.height).length ∧ w.locator.head? = some tip.hash
  /-- Without a tip nothing is recorded. -/
  unsynced : w.tip = none → w.locator = [] ∧ row.hash = Hash256.zero.bytes
  /-- There is an ancestor to compare with at or below every height, the highest that the locator has. -/
  compared : ∀ tip, w.tip = some tip → ∀ height, ∃ floor recorded,
    Wallet.ancestorAt? tip w.locator height = some (floor, recorded) ∧
      IsLocatorFloor tip.height height floor

/-- A store whose queries meet no bytes that are no hash. A query by name is refused for a name that no
wallet has, and a balance if a sum leaves the range of signed words. -/
structure Store.Readable (s : Store) : Prop where
  wallet? : ∀ name, ∃ w, s.wallet? name = .ok w
  wallet : ∀ name, RefusedFor (· = .walletNotFound name) (s.wallet name)
  allWallets : ∃ ws, s.allWallets = .ok ws
  accountList : ∀ name, RefusedFor (· = .walletNotFound name) (s.accountList name)
  ledgerEntries : ∀ name, RefusedFor (· = .walletNotFound name) (s.ledgerEntries name)
  addressEntries : ∀ id, ∃ es, s.addressEntries id = .ok es
  spendableOutputs : ∀ wallet account current maturity confirmations,
    ∃ es, s.spendableOutputs wallet account current maturity confirmations = .ok es
  balance : ∀ wallet account, RefusedFor (· = .store .overflow) (s.balance wallet account)
  paymentsFor : ∀ o, ∃ ps, s.paymentsFor o = .ok ps
  allPayments : ∃ ps, s.allPayments = .ok ps

/-! ## Wallets -/

theorem BlockLocator.length_of_build {tip : BlockRef} {chain : ChainView} {locator : BlockLocator}
    (h : build tip chain = .ok locator) :
    locator.hashes.length = (locatorHeights tip.height).length := by
  obtain ⟨hashes, hhashes, h⟩ := bind_eq_ok_iff.1 h
  cases h
  exact (zip_of_mapM_eq_ok hhashes).1.symm

/-- A locator begins with the block that it is of. -/
theorem BlockLocator.head?_of_build {tip : BlockRef} {chain : ChainView} {locator : BlockLocator}
    (h : build tip chain = .ok locator) : locator.hashes.head? = some tip.hash := by
  obtain ⟨rest, hrest⟩ := exists_locatorHeights_eq_cons tip.height
  obtain ⟨hashes, hhashes, h⟩ := bind_eq_ok_iff.1 h
  cases h
  rw [hrest, List.mapM_cons] at hhashes
  obtain ⟨first, hfirst, hhashes⟩ := bind_eq_ok_iff.1 hhashes
  obtain ⟨more, -, hhashes⟩ := bind_eq_ok_iff.1 hhashes
  cases hhashes
  rw [ancestor, if_pos rfl] at hfirst
  cases hfirst
  rfl

/-- **A whole locator is compared at some height**, since height zero lies above no block. -/
theorem Wallet.exists_ancestorAt? {tip : BlockRef} {locator : List Hash256}
    (hlength : locator.length = (locatorHeights tip.height).length) (height : UInt32) :
    ∃ floor recorded, ancestorAt? tip locator height = some (floor, recorded) ∧
      IsLocatorFloor tip.height height floor := by
  have hfst : ((locatorHeights tip.height).zip locator).map Prod.fst = locatorHeights tip.height :=
    List.map_fst_zip (Nat.le_of_eq hlength.symm)
  have hzero := zero_mem_locatorHeights tip.height
  rw [← hfst] at hzero
  obtain ⟨entry, hentry, hlast⟩ := List.mem_map.1 hzero
  have hfound : (ancestorAt? tip locator height).isSome := by
    refine List.find?_isSome.2 ⟨entry, hentry, ?_⟩
    rw [hlast]
    exact decide_eq_true (UInt32.zero_le)
  obtain ⟨⟨floor, recorded⟩, hfound⟩ := Option.isSome_iff_exists.1 hfound
  obtain ⟨hmem, hle, hhighest⟩ := ancestorAt?_eq_some hfst hfound
  refine ⟨floor, recorded, hfound, ?_, hle, hhighest⟩
  rw [← hfst]
  exact List.mem_map_of_mem (f := Prod.fst) hmem

theorem WalletRow.Synced.exists_readAs {row : WalletRow} (h : row.Synced) : ∃ w, row.ReadAs w := by
  rcases h.eq_withTip with ⟨hheight, hhash, hlocator⟩ | ⟨tip, chain, locator, hbuild, hrow⟩
  case inl =>
    have hdecode : row.decode = .ok ⟨row.id, row.name, none, [], row.fromExtendedKey, row.seed,
        row.chainCode, row.created⟩ := by
      unfold decode WalletRow.tip
      rw [hheight, hlocator]
      rfl
    exact ⟨_, hdecode, hhash, nofun, fun _ => ⟨rfl, hhash⟩, nofun⟩
  case inr =>
    have hdecode := Store.decode_withTip row tip locator.hashes
    rw [← hrow] at hdecode
    have hlength := BlockLocator.length_of_build hbuild
    refine ⟨_, hdecode, ?_, ?_, nofun, ?_⟩
    · rw [hrow]
      rfl
    · rintro _ ⟨⟩
      exact ⟨hlength, BlockLocator.head?_of_build hbuild⟩
    · rintro _ ⟨⟩
      exact Wallet.exists_ancestorAt? hlength

/-! ## Queries -/

namespace Store

variable {s : Store}

theorem WellFormed.refusedFor_wallet (hs : s.WellFormed) (name : String) :
    RefusedFor (· = .walletNotFound name) (s.wallet name) := by
  unfold wallet
  split
  · intro e h
    cases h
    rfl
  · rename_i row hrow
    obtain ⟨w, hw⟩ := (hs.synced row (List.mem_of_find?_eq_some hrow)).exists_decode
    rw [hw]
    exact refusedFor_ok w

/-- **No query of a well-formed store meets bytes that are no hash.** -/
theorem WellFormed.readable (hs : s.WellFormed) : s.Readable := by
  have hwallet := hs.refusedFor_wallet
  constructor
  case wallet => exact hwallet
  case wallet? =>
    intro name
    unfold wallet?
    split
    · exact ⟨none, rfl⟩
    · rename_i row hrow
      obtain ⟨w, hw⟩ := (hs.synced row (List.mem_of_find?_eq_some hrow)).exists_decode
      rw [hw]
      exact ⟨some w, rfl⟩
  case allWallets => exact exists_mapM_eq_ok fun row hrow => (hs.synced row hrow).exists_decode
  case accountList => exact fun name => (hwallet name).bind fun w _ => refusedFor_ok _
  case ledgerEntries =>
    refine fun name => (hwallet name).bind fun w _ => ?_
    obtain ⟨es, hes, -⟩ := hs.exists_entries byKey fun r => r.key.address.group.wallet == w.id
    rw [ledgerOf, hes]
    exact refusedFor_ok es
  case addressEntries => exact fun id => (hs.exists_entries _ _).imp fun _ h => h.1
  case spendableOutputs => exact fun _ _ _ _ _ => (hs.exists_entries _ _).imp fun _ h => h.1
  case balance =>
    intro wallet account
    unfold balance
    dsimp only
    split
    · exact refusedFor_ok _
    · intro e h
      cases h
      rfl
  case paymentsFor => exact exists_paymentsFor hs
  case allPayments => exact exists_mapM_eq_ok fun p hp => hs.exists_payment ((Sorting.mem_sortBy _).1 hp)

end Store

/-- A store in which wallets are complete and queries meet no bytes that are no hash. -/
structure Store.Complete (s : Store) : Prop where
  wallets : ∀ row ∈ s.wallets, ∃ w, s.wallet row.name = .ok w ∧ row.ReadAs w
  readable : s.Readable

namespace Indexer

open Store

/-- **Every store can be read in every state**: of every network, after any calls with any chains, answered
or refused. Each wallet has a hash for every height of its locator, and is compared with a block at one of
them. -/
theorem stores_readable (network : Network) (config : Config) (calls : List Call) (other : Network) :
    ((run network config calls).storeOf other).Complete := by
  obtain ⟨answered, past, hist⟩ := reachable_run network config calls
  have hs := wellFormed_of_history hist _ List.mem_cons_self other
  refine ⟨fun row hrow => ?_, hs.readable⟩
  obtain ⟨w, hw⟩ := (hs.synced row hrow).exists_readAs
  refine ⟨w, ?_, hw⟩
  rw [wallet_of_walletRow? (hs.walletRow?_eq_some hrow), hw.decoded]

end Indexer

end WalletLedger
