import WalletLedger.Store.Row
import WalletLedger.Chain.Locator

/-!
# Wallets and accounts

Wallets have unique names and accounts have unique indexes within a wallet. A wallet without a tip
has synced nothing yet.
-/

namespace WalletLedger

/-- A wallet as it is read from the store. -/
structure Wallet where
  id : Int
  name : String
  /-- The last synced block, `none` before the first one. -/
  tip : Option BlockRef
  /-- The ancestors of the tip at the heights of its locator. -/
  locator : List Hash256
  fromExtendedKey : Bool
  seed : String
  chainCode : String
  created : UInt32
  deriving DecidableEq

/-- The hash a wallet is synced to, all zeros before the first block. -/
def Wallet.syncedHash (w : Wallet) : Hash256 := (w.tip.map (·.hash)).getD Hash256.zero

/-- What a wallet is created from. -/
structure NewWallet where
  name : String
  seed : String
  chainCode : String
  fromExtendedKey : Bool
  created : UInt32
  deriving DecidableEq

/-- Reads the tip. Without a height the hash is not read. -/
def WalletRow.tip (r : WalletRow) : Result (Option BlockRef) :=
  match r.height with
  | none => .ok none
  | some height => (readBlockHash r.hash).map fun hash => some ⟨height, hash⟩

/-- Reads the tip, then the locator. -/
def WalletRow.decode (r : WalletRow) : Result Wallet := do
  let tip ← r.tip
  let locator ← BlockLocator.decode r.locator
  return ⟨r.id, r.name, tip, locator, r.fromExtendedKey, r.seed, r.chainCode, r.created⟩

/-- The row synced to a block. -/
def WalletRow.withTip (r : WalletRow) (tip : BlockRef) (locator : List Hash256) : WalletRow :=
  { r with
    height := some tip.height
    hash := tip.hash.bytes
    locator := BlockLocator.encode locator }

namespace Store

/-- The row of a wallet, by name. -/
def walletRow? (s : Store) (name : String) : Option WalletRow := s.wallets.find? (·.name == name)

/-- The wallet with a name, if there is one. -/
def wallet? (s : Store) (name : String) : Result (Option Wallet) :=
  match s.walletRow? name with
  | none => .ok none
  | some row => return some (← row.decode)

/-- The wallet with a name. -/
def wallet (s : Store) (name : String) : Result Wallet :=
  match s.walletRow? name with
  | none => .error (.walletNotFound name)
  | some row => row.decode

/-- Adds a wallet. Wallets are numbered from one, in the order they are added. -/
def insertWallet (s : Store) (new : NewWallet) (tip : Option BlockRef) (locator : List Hash256) :
    Result Store :=
  if (s.walletRow? new.name).isSome then .error (.store .walletName)
  else
    let row : WalletRow :=
      { id := s.wallets.length + 1
        name := new.name
        height := tip.map (·.height)
        hash := ((tip.map (·.hash)).getD Hash256.zero).bytes
        locator := BlockLocator.encode locator
        fromExtendedKey := new.fromExtendedKey
        seed := new.seed
        chainCode := new.chainCode
        created := new.created }
    .ok { s with wallets := s.wallets ++ [row] }

/-- Syncs a wallet to a block. -/
def setTip (s : Store) (wallet : Int) (tip : BlockRef) (locator : List Hash256) : Store :=
  { s with wallets := s.wallets.map fun r => if r.id = wallet then r.withTip tip locator else r }

/-- The account of a wallet with an index. -/
def account? (s : Store) (wallet : Int) (index : UInt32) : Option Account :=
  s.accounts.find? fun a => a.wallet == wallet && a.index == index

/-- Adds an account. -/
def insertAccount (s : Store) (account : Account) : Result Store :=
  if (s.account? account.wallet account.index).isSome then .error (.store .account)
  else .ok { s with accounts := s.accounts ++ [account] }

variable {s s' : Store}

theorem eq_of_insertWallet {new : NewWallet} {tip : Option BlockRef} {locator : List Hash256}
    (h : s.insertWallet new tip locator = .ok s') : s' = { s with wallets := s'.wallets } := by
  unfold insertWallet at h
  split at h
  · cases h
  · cases h
    rfl

theorem eq_of_insertAccount {account : Account} (h : s.insertAccount account = .ok s') :
    s' = { s with accounts := s.accounts ++ [account] } := by
  unfold insertAccount at h
  split at h
  · cases h
  · cases h
    rfl

end Store

end WalletLedger
