import Mathlib.Data.List.Sort
import WalletLedger.Sorting
import WalletLedger.Store.Row

/-!
# Sorted answers

The store's sort is the insertion sort of the library, and what is known of that holds of it. An order
of rows is total and transitive, so sorted answers ascend.

* `sortBy_eq_insertionSort`: the two sorts are one.
* `sortBy_eq_of_perm`, `sortBy_congr`: there is one ascending list of elements that do not tie.
* `filter_sortBy`: sorting keeps what a test picks out in the order of the test's own sort.
-/

namespace WalletLedger.Sorting

variable {α : Type}

/-! ## The library's sort -/

theorem insertBefore_eq_orderedInsert (le : α → α → Bool) (x : α) (l : List α) :
    insertBefore le x l = l.orderedInsert (fun a b => le a b) x := by
  induction l with
  | nil => rfl
  | cons y ys ih => rw [insertBefore, List.orderedInsert_cons, ih]

/-- **The store sorts by insertion.** -/
theorem sortBy_eq_insertionSort (le : α → α → Bool) (l : List α) :
    sortBy le l = l.insertionSort (fun a b => le a b) := by
  induction l with
  | nil => rfl
  | cons x xs ih => rw [sortBy, List.insertionSort_cons, ih, insertBefore_eq_orderedInsert]

theorem sortBy_perm (le : α → α → Bool) (l : List α) : (sortBy le l).Perm l := by
  rw [sortBy_eq_insertionSort]
  exact List.perm_insertionSort _ l

@[simp] theorem mem_sortBy (le : α → α → Bool) {x : α} {l : List α} : x ∈ sortBy le l ↔ x ∈ l :=
  (sortBy_perm le l).mem_iff

/-! ## Orders of rows -/

variable {order : α → α → Ordering} [Std.TransCmp order]

instance : Std.Total fun a b => (notAfter order a b : Prop) := ⟨notAfter_total⟩

instance : IsTrans α fun a b => notAfter order a b := ⟨notAfter_trans⟩

/-- The ascending list of some elements is unique, if no two of them tie. -/
theorem sortBy_eq_of_perm {l l' : List α} (hperm : l.Perm l')
    (hl' : l'.Pairwise fun a b => notAfter order a b)
    (antisymm : ∀ a ∈ l', ∀ b ∈ l', notAfter order a b → notAfter order b a → a = b) :
    sortBy (notAfter order) l = l' := by
  rw [sortBy_eq_insertionSort]
  have hsorted := (List.perm_insertionSort (fun a b => (notAfter order a b : Prop)) l).trans hperm
  refine List.Perm.eq_of_pairwise ?_ (List.pairwise_insertionSort _ l) hl' hsorted
  intro a b ha hb hab hba
  exact antisymm a (hsorted.mem_iff.1 ha) b hb hab hba

/-- Elements that do not tie are sorted in one way, however they come. -/
theorem sortBy_congr {l l' : List α} (hperm : l.Perm l')
    (antisymm : ∀ a ∈ l', ∀ b ∈ l', notAfter order a b → notAfter order b a → a = b) :
    sortBy (notAfter order) l = sortBy (notAfter order) l' := by
  refine sortBy_eq_of_perm (hperm.trans (sortBy_perm _ l').symm) ?_ fun a ha b hb => ?_
  · rw [sortBy_eq_insertionSort]
    exact List.pairwise_insertionSort _ l'
  · exact antisymm a ((mem_sortBy _).1 ha) b ((mem_sortBy _).1 hb)

/-- Inserting and testing commute on an ascending list. -/
theorem filter_orderedInsert {r : α → α → Prop} [DecidableRel r] [IsTrans α r] (p : α → Bool) (x : α)
    {l : List α} (hl : l.Pairwise r) : (l.orderedInsert r x).filter p =
      if p x then (l.filter p).orderedInsert r x else l.filter p := by
  induction l with
  | nil => cases hp : p x <;> simp [hp]
  | cons y ys ih =>
    obtain ⟨hy, hys⟩ := List.pairwise_cons.1 hl
    rw [List.orderedInsert_cons]
    split
    · rename_i hxy
      -- everything that stays comes after the new element
      have hafter : ∀ z ∈ (y :: ys).filter p, r x z := by
        intro z hz
        rcases List.mem_cons.1 (List.mem_filter.1 hz).1 with rfl | hz
        · exact hxy
        · exact IsTrans.trans _ _ _ hxy (hy z hz)
      have hfirst : ((y :: ys).filter p).orderedInsert r x = x :: (y :: ys).filter p := by
        cases hkept : (y :: ys).filter p with
        | nil => rfl
        | cons z zs =>
          exact List.orderedInsert_cons_of_le r zs (hafter z (hkept ▸ List.mem_cons_self))
      rw [List.filter_cons, hfirst]
    · rename_i hxy
      rw [List.filter_cons, ih hys, List.filter_cons]
      cases hp : p x <;> cases hq : p y <;> simp [hxy]

/-- Sorting and testing commute. -/
theorem filter_sortBy (p : α → Bool) (l : List α) :
    (sortBy (notAfter order) l).filter p = sortBy (notAfter order) (l.filter p) := by
  rw [sortBy_eq_insertionSort, sortBy_eq_insertionSort]
  induction l with
  | nil => rfl
  | cons x xs ih =>
    rw [List.insertionSort_cons, filter_orderedInsert p x (List.pairwise_insertionSort _ xs), ih,
      List.filter_cons]
    split <;> rfl

end WalletLedger.Sorting
