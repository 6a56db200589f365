/-!
Choosing the element to split a list by. It is the median of three elements, or of medians of such
medians when the list is long, so that it has a fair chance of standing near the middle.
-/
namespace JsonQuery.Sorting

/-- The one of three positions whose element is neither the least nor the greatest. -/
def medianOfThree (before : Nat → Nat → Bool) (a b c : Nat) : Nat :=
  if before a b == before a c then
    if before b c == before a b then b else c
  else a

/-- The median of three positions, each first replaced by the median of three positions in the
`span` elements that begin there, and so on down to the given number of levels. -/
def pseudoMedian (before : Nat → Nat → Bool) : Nat → Nat → Nat → Nat → Nat → Nat
  | 0, _, a, b, c => medianOfThree before a b c
  | level + 1, span, a, b, c =>
    let eighth := span / 8
    let median := fun x =>
      pseudoMedian before level eighth x (x + 4 * eighth) (x + 7 * eighth)
    medianOfThree before (median a) (median b) (median c)

/-- The position of an element to split the list by. Every level needs spans of eight elements or
more. -/
def pivotPosition {α : Type} (less : α → α → Bool) (xs : Array α) : Nat :=
  let before := fun i j =>
    match xs[i]?, xs[j]? with
    | some x, some y => less x y
    | _, _ => false
  let eighth := xs.size / 8
  pseudoMedian before (eighth.log2 / 3) eighth 0 (4 * eighth) (7 * eighth)

end JsonQuery.Sorting
