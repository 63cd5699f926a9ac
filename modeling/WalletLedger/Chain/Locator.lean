import WalletLedger.Chain.View
import WalletLedger.Error

/-!
# Block locators

A locator names a block and some of its ancestors: the first eight heights one by one, then at
distances that double, and always height zero. It tells whether two histories share a block without
the whole chain.

* `locatorHeights`: the heights a locator names.
* `BlockLocator.build`: the locator of a block, read from a chain view.
* `BlockLocator.encode`, `BlockLocator.decode`: its stored form, 32 bytes for each block, read back by
  `BlockLocator.decode_encode`.
-/

namespace WalletLedger

/-- The distance from the height that `taken` others precede to the next one. -/
def locatorStride (taken : Nat) : Nat := if taken < 8 then 1 else 1 <<< (taken - 7)

theorem locatorStride_pos (taken : Nat) : 0 < locatorStride taken := by
  unfold locatorStride
  split
  · exact Nat.one_pos
  · rw [Nat.one_shiftLeft]; exact Nat.two_pow_pos _

/-- The heights from `height` down to zero, when `taken` are already listed. -/
def locatorWalk (taken height : Nat) : List Nat :=
  if height = 0 then [0]
  else height :: locatorWalk (taken + 1) (height - locatorStride taken)
termination_by height
decreasing_by have := locatorStride_pos taken; omega

/-- The heights that the locator of a block at `height` names. -/
def locatorHeights (height : UInt32) : List UInt32 :=
  (locatorWalk 0 height.toNat).map UInt32.ofNat

theorem le_of_mem_locatorWalk {taken height n : Nat} (h : n ∈ locatorWalk taken height) :
    n ≤ height := by
  fun_induction locatorWalk taken height with
  | case1 taken =>
    rw [List.mem_singleton] at h
    omega
  | case2 taken height hne ih =>
    rcases List.mem_cons.1 h with rfl | h
    · exact Nat.le_refl _
    · have hle := ih h
      omega

/-- A locator names no height above its own. -/
theorem le_of_mem_locatorHeights {height h : UInt32} (hmem : h ∈ locatorHeights height) :
    h ≤ height := by
  obtain ⟨n, hn, rfl⟩ := List.mem_map.1 hmem
  have hle := le_of_mem_locatorWalk hn
  have hlt := height.toNat_lt_size
  rw [UInt32.le_iff_toNat_le, UInt32.toNat_ofNat_of_lt' (by omega)]
  exact hle

/-- The blocks at the heights `locatorHeights latestBlock`. -/
structure BlockLocator where
  latestBlock : UInt32
  hashes : List Hash256
  deriving DecidableEq

namespace BlockLocator

/-- The locator of a wallet that has synced nothing. -/
def empty : BlockLocator := ⟨0, []⟩

/-- The block at a height on the branch of `tip`, which need not be on the chain yet. -/
def ancestor (tip : BlockRef) (chain : ChainView) (height : UInt32) : Result Hash256 :=
  if height = tip.height then .ok tip.hash
  else
    match chain height with
    | some hash => .ok hash
    | none => .error (.blockNotFound height)

/-- The locator of `tip`, its ancestors read from `chain`. -/
def build (tip : BlockRef) (chain : ChainView) : Result BlockLocator := do
  let hashes ← (locatorHeights tip.height).mapM (ancestor tip chain)
  return ⟨tip.height, hashes⟩

/-- A locator reads the chain below its own height only. -/
theorem build_congr {tip : BlockRef} {chain view : ChainView}
    (h : ∀ height < tip.height, chain height = view height) : build tip chain = build tip view := by
  unfold build
  rw [mapM_congr]
  intro height hmem
  have hle := le_of_mem_locatorHeights hmem
  unfold ancestor
  split
  · rfl
  · rename_i hne
    rw [h height (UInt32.lt_of_le_of_ne hle hne)]

/-- The locator of a wallet's tip, empty without one. -/
def ofTip (tip : Option BlockRef) (chain : ChainView) : Result BlockLocator :=
  match tip with
  | none => .ok empty
  | some tip => build tip chain

/-- The stored form of a list of hashes. -/
def encode (hashes : List Hash256) : Bytes := hashes.flatMap (·.bytes)

/-- Reads the stored form, which has 32 bytes for each hash. -/
def decode (bs : Bytes) : Result (List Hash256) :=
  if bs.length % 32 = 0 then (Bytes.chunks 32 (bs.length / 32) bs).mapM readBlockHash
  else .error (.invalidHash (.locator bs.length))

theorem length_encode (hashes : List Hash256) : (encode hashes).length = 32 * hashes.length := by
  induction hashes with
  | nil => rfl
  | cons h hashes ih =>
    rw [encode, List.flatMap_cons, List.length_append, h.length_bytes, ← encode, ih,
      List.length_cons]
    omega

/-- A stored locator is read back. -/
theorem decode_encode (hashes : List Hash256) : decode (encode hashes) = .ok hashes := by
  unfold decode
  rw [length_encode, if_pos (Nat.mul_mod_right 32 _), Nat.mul_div_cancel_left _ (by decide)]
  induction hashes with
  | nil => rfl
  | cons h hashes ih =>
    have htake : (encode (h :: hashes)).take 32 = h.bytes := by
      rw [encode, List.flatMap_cons, List.take_left' h.length_bytes]
    have hdrop : (encode (h :: hashes)).drop 32 = encode hashes := by
      rw [encode, List.flatMap_cons, List.drop_left' h.length_bytes, encode]
    have hread : readBlockHash h.bytes = .ok h := readBlockHash_eq_ok_iff.2 rfl
    rw [List.length_cons, Bytes.chunks, htake, hdrop, List.mapM_cons, ih, hread]
    rfl

end BlockLocator

end WalletLedger
