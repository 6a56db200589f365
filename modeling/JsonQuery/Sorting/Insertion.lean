/-!
Sorting by insertion. An element moves left past the elements it is less than and stops at the
first one it is not less than, so equal elements keep their order, and the result is defined for
every test, also one that is no total order.
-/
namespace JsonQuery.Sorting

/-- Inserts `x` into a list whose greatest element comes first. -/
def insertDescending {α : Type} (less : α → α → Bool) (x : α) : List α → List α
  | [] => [x]
  | y :: rest => if less x y then y :: insertDescending less x rest else x :: y :: rest

/-- An ascending list after more elements have been inserted into it, one by one. -/
def insertEach {α : Type} (less : α → α → Bool) (sorted xs : List α) : List α :=
  (xs.foldl (fun descending x => insertDescending less x descending) sorted.reverse).reverse

/-- The elements in ascending order. -/
def insertionSort {α : Type} (less : α → α → Bool) (xs : List α) : List α :=
  insertEach less [] xs

end JsonQuery.Sorting
