import Mathlib.Data.Nat.Find
import WalletLedger.Proofs.Locator

/-!
# How far apart the heights of a locator are

A loop lists the heights in words: the height that is left, then the one a stride below. The stride is one
for the first eight rounds and doubles before each later one. Doubling a word could wrap, and a stride of
zero would keep the loop from ending; the heights run out before.

* `Backoff`: the loop, a round being `Backoff.next`.
* `locatorDepth_succ`: the depths that the heights lie at, in closed form.
* `Backoff.At`: what the loop has done after some rounds, with `Backoff.At.next` (one round) and
  `Backoff.at_after` (all of them).
* `LocatorShape`: the heights of a locator in closed form.
* `locatorHeights_shape`: the loop ends, with these heights.
-/

namespace WalletLedger

/-- The words of the loop. -/
structure Backoff where
  /-- The heights listed so far. -/
  listed : List UInt32
  /-- The height to list next, zero at the end. -/
  left : UInt32
  /-- The distance to the height after it. -/
  stride : UInt32

/-- How far the height that `taken` others precede lies below the first one. -/
def locatorDepth (taken : Nat) : Nat := if taken < 8 then taken else 6 + 1 <<< (taken - 7)

namespace Backoff

/-- The loop before its first round. -/
def start (height : UInt32) : Backoff := ⟨[], height, 1⟩

/-- The difference of two words, zero if the second is greater. -/
def monus (a b : UInt32) : UInt32 := if b ≤ a then a - b else 0

/-- The stride that a round goes by. It is a word, so that doubling it may wrap. -/
def nextStride (b : Backoff) : UInt32 := if b.listed.length < 8 then b.stride else b.stride * 2

/-- A round. -/
def next (b : Backoff) : Backoff := ⟨b.listed ++ [b.left], monus b.left b.nextStride, b.nextStride⟩

/-- The loop after some rounds. -/
def after (height : UInt32) : Nat → Backoff
  | 0 => start height
  | rounds + 1 => (after height rounds).next

/-- The loop runs for some rounds and ends then. Every stride is at most `2 ^ 31`, and a stride that is
doubled is twice the one before. -/
structure Runs (height : UInt32) (rounds : Nat) : Prop where
  goesOn : ∀ k < rounds, (after height k).left ≠ 0
  ends : (after height rounds).left = 0
  bounded : ∀ k ≤ rounds, (after height k).stride.toNat ≤ 1 <<< 31
  doubles : ∀ k < rounds, (after height (k + 1)).stride.toNat =
    if k < 8 then 1 else 2 * (after height k).stride.toNat

end Backoff

/-- The heights of a locator, which the loop lists in some rounds. -/
structure LocatorShape (height : UInt32) (rounds : Nat) : Prop where
  runs : Backoff.Runs height rounds
  listed : locatorHeights height = (Backoff.after height rounds).listed ++ [0]
  /-- The first eight lie one below the other. -/
  near : ∀ i ≤ 7, i < height.toNat → (locatorHeights height)[i]? = some (height - UInt32.ofNat i)
  /-- The ninth and the later ones lie six and a power of two below the first. -/
  far : ∀ j, 6 + 1 <<< (j + 1) < height.toNat →
    (locatorHeights height)[8 + j]? = some (height - UInt32.ofNat (6 + 1 <<< (j + 1)))
  /-- No others lie above zero. -/
  above : ∀ i, i < rounds ↔
    (i ≤ 7 ∧ i < height.toNat) ∨ ∃ j, i = 8 + j ∧ 6 + 1 <<< (j + 1) < height.toNat
  length : (locatorHeights height).length = rounds + 1
  atMost : (locatorHeights height).length ≤ 40
  first : (locatorHeights height).head? = some height
  descends : (locatorHeights height).Pairwise fun a b => b < a
  last : (locatorHeights height).getLast? = some 0
  once : (locatorHeights height).count 0 = 1

/-! ## Depths -/

theorem locatorStride_of_lt {taken : Nat} (h : taken < 8) : locatorStride taken = 1 := if_pos h

/-- From the ninth height on the stride doubles. -/
theorem locatorStride_eq_two_mul {taken : Nat} (h : 8 ≤ taken) :
    locatorStride taken = 2 * locatorStride (taken - 1) := by
  obtain ⟨n, rfl⟩ : ∃ n, taken = n + 8 := ⟨taken - 8, by omega⟩
  have hdouble : 1 <<< (n + 1) = 2 * 1 <<< n := by
    rw [Nat.one_shiftLeft, Nat.one_shiftLeft, Nat.pow_succ, Nat.mul_comm]
  unfold locatorStride
  rw [if_neg (by omega), show n + 8 - 7 = n + 1 by omega, show n + 8 - 1 = n + 7 by omega, hdouble]
  by_cases hzero : n = 0
  · subst hzero
    rfl
  · rw [if_neg (by omega), show n + 7 - 7 = n by omega]

theorem locatorDepth_of_le {i : Nat} (h : i ≤ 7) : locatorDepth i = i := if_pos (by omega)

theorem locatorDepth_add (j : Nat) : locatorDepth (8 + j) = 6 + 1 <<< (j + 1) := by
  unfold locatorDepth
  rw [if_neg (by omega), show 8 + j - 7 = j + 1 by omega]

/-- The next height lies a stride deeper. -/
theorem locatorDepth_succ (taken : Nat) :
    locatorDepth (taken + 1) = locatorDepth taken + locatorStride taken := by
  unfold locatorDepth
  by_cases hunit : taken < 7
  · rw [if_pos (by omega), if_pos (by omega), locatorStride_of_lt (by omega)]
  · by_cases hlast : taken = 7
    · subst hlast
      rfl
    · have hdouble : locatorStride (taken + 1) = 2 * locatorStride (taken + 1 - 1) :=
        locatorStride_eq_two_mul (by omega)
      simp only [locatorStride, Nat.add_sub_cancel] at hdouble
      rw [if_neg (by omega), if_neg (by omega)] at hdouble
      rw [if_neg (by omega), if_neg (by omega), locatorStride, if_neg (by omega), hdouble]
      omega

theorem locatorDepth_lt_succ (taken : Nat) : locatorDepth taken < locatorDepth (taken + 1) := by
  have hpos := locatorStride_pos taken
  rw [locatorDepth_succ]
  omega

theorem locatorDepth_le {taken later : Nat} (h : taken ≤ later) :
    locatorDepth taken ≤ locatorDepth later := by
  induction h with
  | refl => exact Nat.le_refl _
  | step _ ih => exact Nat.le_trans ih (Nat.le_of_lt (locatorDepth_lt_succ _))

/-- Forty heights would reach deeper than a word. -/
theorem size_le_locatorDepth : UInt32.size ≤ locatorDepth 39 := by decide

theorem locatorStride_le {taken : Nat} (h : taken ≤ 38) : locatorStride taken ≤ 1 <<< 31 := by
  unfold locatorStride
  split
  · decide
  · rw [Nat.one_shiftLeft, Nat.one_shiftLeft]
    exact Nat.pow_le_pow_right (by decide) (by omega)

/-- The number of heights above zero. -/
theorem exists_rounds (height : UInt32) :
    ∃ rounds ≤ 39, (∀ k < rounds, locatorDepth k < height.toNat) ∧
      height.toNat ≤ locatorDepth rounds := by
  have hdeep : ∃ n, height.toNat ≤ locatorDepth n :=
    ⟨39, Nat.le_trans (Nat.le_of_lt height.toNat_lt_size) size_le_locatorDepth⟩
  refine ⟨Nat.find hdeep, Nat.find_min' hdeep ?_, fun k hk => ?_, Nat.find_spec hdeep⟩
  · exact Nat.le_trans (Nat.le_of_lt height.toNat_lt_size) size_le_locatorDepth
  · exact Nat.lt_of_not_le (Nat.find_min hdeep hk)

/-! ## The loop -/

namespace Backoff

variable {height : UInt32} {rounds k : Nat} {b : Backoff}

/-- What the loop has done after `k` rounds, as long as it goes on. -/
structure At (height : UInt32) (k : Nat) (b : Backoff) : Prop where
  listed : b.listed = (List.range k).map fun i => UInt32.ofNat (height.toNat - locatorDepth i)
  left : b.left.toNat = height.toNat - locatorDepth k
  /-- The stride of the round before, if there was one. -/
  stride : b.stride.toNat = locatorStride (k - 1)
  /-- The listed heights and those of the walk from here are the locator's. -/
  walk : b.listed.map (·.toNat) ++ locatorWalk k b.left.toNat = locatorWalk 0 height.toNat

theorem toNat_monus (a b : UInt32) : (monus a b).toNat = a.toNat - b.toNat := by
  unfold monus
  by_cases hle : b ≤ a
  · rw [if_pos hle, UInt32.toNat_sub_of_le _ _ hle]
  · rw [if_neg hle, UInt32.toNat_zero]
    rw [UInt32.le_iff_toNat_le] at hle
    omega

theorem at_start (height : UInt32) : (start height).At height 0 where
  listed := rfl
  left := rfl
  stride := rfl
  walk := rfl

theorem At.length (h : b.At height k) : b.listed.length = k := by
  rw [h.listed, List.length_map, List.length_range]

/-- The stride that a round goes by does not wrap. -/
theorem At.toNat_nextStride (h : b.At height k) (hk : k ≤ 38) :
    b.nextStride.toNat = locatorStride k := by
  have hbound := locatorStride_le hk
  rw [nextStride, h.length]
  by_cases hunit : k < 8
  · rw [if_pos hunit, h.stride, locatorStride_of_lt (by omega), locatorStride_of_lt hunit]
  · have hdouble := locatorStride_eq_two_mul (Nat.le_of_not_lt hunit)
    have hword : 1 <<< 31 < 4294967296 := by decide
    rw [if_neg hunit, UInt32.toNat_mul, h.stride, hdouble]
    simp only [UInt32.reduceToNat]
    omega

/-- **One round** of the loop is one step of the walk. -/
theorem At.next (h : b.At height k) (hleft : b.left ≠ 0) (hk : k ≤ 38) :
    b.next.At height (k + 1) := by
  have hstride := h.toNat_nextStride hk
  have hpos : b.left.toNat ≠ 0 := fun hzero => hleft (UInt32.toNat_inj.1 hzero)
  have hdiff : b.next.left.toNat = b.left.toNat - locatorStride k := by
    rw [← hstride]
    exact toNat_monus _ _
  have hlast : UInt32.ofNat (height.toNat - locatorDepth k) = b.left := by
    rw [← h.left, UInt32.ofNat_toNat]
  refine ⟨?_, ?_, hstride, ?_⟩
  · show b.listed ++ [b.left] = _
    rw [List.range_succ, List.map_append, List.map_singleton, ← h.listed, hlast]
  · rw [hdiff, h.left, locatorDepth_succ]
    omega
  · rw [hdiff, ← h.walk]
    show (b.listed ++ [b.left]).map (·.toNat) ++ _ = _
    rw [locatorWalk.eq_def k, if_neg hpos, List.map_append, List.append_assoc]
    rfl

/-- **All rounds**: until the heights run out, the loop is where the walk is. -/
theorem at_after (hgoes : ∀ k < rounds, locatorDepth k < height.toNat) (hrounds : rounds ≤ 39) :
    ∀ k ≤ rounds, (after height k).At height k := by
  intro k
  induction k with
  | zero => exact fun _ => at_start height
  | succ k ih =>
    intro hk
    have hat := ih (by omega)
    refine hat.next (fun hzero => ?_) (by omega)
    have hleft := hat.left
    have hdepth := hgoes k (by omega)
    rw [hzero, UInt32.toNat_zero] at hleft
    omega

theorem runs_of_depth (hgoes : ∀ k < rounds, locatorDepth k < height.toNat)
    (hends : height.toNat ≤ locatorDepth rounds) (hrounds : rounds ≤ 39) : Runs height rounds := by
  have hat := at_after hgoes hrounds
  constructor
  case goesOn =>
    intro k hk hzero
    have hleft := (hat k (by omega)).left
    have hdepth := hgoes k hk
    rw [hzero, UInt32.toNat_zero] at hleft
    omega
  case ends =>
    have hleft := (hat rounds (by omega)).left
    rw [← UInt32.toNat_inj, hleft, UInt32.toNat_zero]
    omega
  case bounded =>
    intro k hk
    rw [(hat k hk).stride]
    exact locatorStride_le (by omega)
  case doubles =>
    intro k hk
    rw [(hat (k + 1) (by omega)).stride, (hat k (by omega)).stride, Nat.add_sub_cancel]
    split
    · rename_i hunit
      exact locatorStride_of_lt hunit
    · rename_i hge
      exact locatorStride_eq_two_mul (by omega)

/-- At its end the loop has listed the heights of the locator but for the last. -/
theorem Runs.locatorHeights_eq (h : Runs height rounds) (hat : (after height rounds).At height rounds) :
    locatorHeights height = (after height rounds).listed ++ [0] := by
  have hwalk := hat.walk
  have hend : locatorWalk rounds 0 = [0] := by
    rw [locatorWalk, if_pos rfl]
  rw [h.ends, UInt32.toNat_zero, hend] at hwalk
  rw [locatorHeights, ← hwalk, List.map_append, List.map_map]
  congr 1
  exact List.map_id'' (fun _ => UInt32.ofNat_toNat) _

end Backoff

/-! ## The heights -/

section

variable {height : UInt32} {rounds i : Nat}

/-- The heights above zero are those that lie less deep than the first one is high. -/
theorem lt_rounds_iff (hgoes : ∀ k < rounds, locatorDepth k < height.toNat)
    (hends : height.toNat ≤ locatorDepth rounds) : i < rounds ↔ locatorDepth i < height.toNat := by
  refine ⟨hgoes i, fun hdepth => ?_⟩
  by_contra hge
  have hmono := locatorDepth_le (Nat.le_of_not_lt hge)
  omega

/-- A depth is one of the first eight, or lies six and a power of two below the first height. -/
theorem locatorDepth_lt_iff : locatorDepth i < height.toNat ↔
    (i ≤ 7 ∧ i < height.toNat) ∨ ∃ j, i = 8 + j ∧ 6 + 1 <<< (j + 1) < height.toNat := by
  by_cases hunit : i ≤ 7
  · rw [locatorDepth_of_le hunit]
    refine ⟨fun h => .inl ⟨hunit, h⟩, ?_⟩
    rintro (⟨-, h⟩ | ⟨j, hj, -⟩)
    · exact h
    · omega
  · obtain ⟨j, rfl⟩ : ∃ j, i = 8 + j := ⟨i - 8, by omega⟩
    rw [locatorDepth_add]
    refine ⟨fun h => .inr ⟨j, rfl, h⟩, ?_⟩
    rintro (⟨hle, -⟩ | ⟨j', hj, h⟩)
    · omega
    · rwa [show j = j' by omega]

/-- The difference of words is that of their numbers. -/
theorem ofNat_sub {n : Nat} (h : n ≤ height.toNat) :
    UInt32.ofNat (height.toNat - n) = height - UInt32.ofNat n := by
  have hsize := height.toNat_lt_size
  have hword : (UInt32.ofNat n).toNat = n := UInt32.toNat_ofNat_of_lt' (by omega)
  rw [← UInt32.toNat_inj, UInt32.toNat_sub_of_le, hword, UInt32.toNat_ofNat_of_lt' (by omega)]
  rw [UInt32.le_iff_toNat_le, hword]
  exact h

/-- A height of the locator lies at its depth below the first one. -/
theorem Backoff.At.getElem?_locatorHeights {b : Backoff} (hat : b.At height rounds)
    (heights : locatorHeights height = b.listed ++ [0]) (hi : i < rounds)
    (hdepth : locatorDepth i < height.toNat) :
    (locatorHeights height)[i]? = some (height - UInt32.ofNat (locatorDepth i)) := by
  have hlength := hat.length
  rw [heights, List.getElem?_append_left (by omega), hat.listed, List.getElem?_map,
    List.getElem?_range hi, Option.map_some, ofNat_sub (Nat.le_of_lt hdepth)]

/-- What comes before the last height lies above it. -/
theorem count_zero_locatorHeights {listed : List UInt32} (heights : locatorHeights height = listed ++ [0]) :
    (locatorHeights height).count 0 = 1 := by
  have hpair := pairwise_locatorHeights height
  rw [heights, List.pairwise_append] at hpair
  have habove : 0 ∉ listed := fun hmem => UInt32.lt_irrefl 0 (hpair.2.2 0 hmem 0 List.mem_cons_self)
  rw [heights, List.count_append, List.count_eq_zero.2 habove]
  rfl

end

/-- **The heights of a locator.** The loop on words ends for every height, its stride never above `2 ^ 31`
and so never wrapped when it doubles, and lists the heights of the locator. -/
theorem locatorHeights_shape (height : UInt32) : ∃ rounds, LocatorShape height rounds := by
  obtain ⟨rounds, hrounds, hgoes, hends⟩ := exists_rounds height
  have hruns := Backoff.runs_of_depth hgoes hends hrounds
  have hat := Backoff.at_after hgoes hrounds rounds (Nat.le_refl _)
  have heights := hruns.locatorHeights_eq hat
  have hlength : (locatorHeights height).length = rounds + 1 := by
    rw [heights, List.length_append, hat.length, List.length_singleton]
  have hindex : ∀ i, i < rounds ↔ locatorDepth i < height.toNat := fun i => lt_rounds_iff hgoes hends
  refine ⟨rounds, ?_⟩
  constructor
  case runs => exact hruns
  case listed => exact heights
  case near =>
    intro i hi hlt
    have hdepth := locatorDepth_of_le hi
    rw [hat.getElem?_locatorHeights heights ((hindex i).2 (by omega)) (by omega), hdepth]
  case far =>
    intro j hlt
    have hdepth := locatorDepth_add j
    rw [hat.getElem?_locatorHeights heights ((hindex (8 + j)).2 (by omega)) (by omega), hdepth]
  case above =>
    intro i
    rw [hindex, locatorDepth_lt_iff]
  case length => exact hlength
  case atMost => omega
  case first =>
    obtain ⟨rest, hrest⟩ := exists_locatorHeights_eq_cons height
    rw [hrest, List.head?_cons]
  case descends => exact pairwise_locatorHeights height
  case last =>
    rw [heights, List.getLast?_append]
    rfl
  case once => exact count_zero_locatorHeights heights

end WalletLedger
