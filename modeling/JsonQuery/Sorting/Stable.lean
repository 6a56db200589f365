import JsonQuery.Sorting.Quick

/-!
Stable sorting. For a total preorder the result is the ascending list in which equal elements keep
their order. Numbers of different kinds may both equal a third number and still differ from each
other; how such elements come to stand, and whether the sort notices and gives up, depends on which of
them are compared, and therefore the comparisons are fixed here for every list. The comparisons are
made between positions, so that the result depends on the elements only through them.
-/
namespace JsonQuery

namespace Sorting

/-- The numbers below `length` in ascending order: by insertion when there are few of them, and by
runs when there are more, the unordered runs by splitting. -/
def sortPositions? (before : Nat → Nat → Bool) (length : Nat) : Option (List Nat) :=
  if length ≤ 20 then some (insertionSort before (List.range length))
  else
    let settle := fun positions => splitSort? before (2 * positions.length.log2) none positions
    sortRuns? before (length ≤ 64) settle (List.range length)

end Sorting

/-- The elements in ascending order, equal ones in the order given. There is no result when two
comparisons are found to contradict each other. -/
def sortStable? {α : Type} (less : α → α → Bool) (xs : List α) : Option (List α) :=
  let items := xs.toArray
  let before := fun i j =>
    match items[i]?, items[j]? with
    | some x, some y => less x y
    | _, _ => false
  (Sorting.sortPositions? before items.size).map fun positions =>
    positions.filterMap fun i => items[i]?

end JsonQuery
