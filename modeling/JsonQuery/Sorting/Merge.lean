/-!
Merging two ascending lists. Of equal elements those of the left list come first, whether the
merge starts with the least elements or with the greatest. For a total preorder both directions
give the same list; for another test they may not, so it matters which one is taken.
-/
namespace JsonQuery.Sorting

/-- The merge that starts with the least elements. -/
def mergeUp {α : Type} (less : α → α → Bool) (left right : List α) : List α :=
  left.merge right fun x y => !less y x

/-- The merge that starts with the greatest elements. -/
def mergeDown {α : Type} (less : α → α → Bool) (left right : List α) : List α :=
  (right.reverse.merge left.reverse fun y x => !less y x).reverse

/-- The merge that starts at the outer end of the shorter list, the left one when both are equally
long. -/
def mergeShorter {α : Type} (less : α → α → Bool) (left right : List α) : List α :=
  if left.length ≤ right.length then mergeUp less left right else mergeDown less left right

/-- How many of the first `n` elements of a merge come from the first list, where `first x y` says
that `x` of the first list goes before `y` of the second. -/
def shareOfFirst {α : Type} (first : α → α → Bool) : Nat → List α → List α → Nat
  | 0, _, _ => 0
  | _ + 1, [], _ => 0
  | n + 1, _ :: xs, [] => shareOfFirst first n xs [] + 1
  | n + 1, x :: xs, y :: ys =>
    if first x y then shareOfFirst first n xs (y :: ys) + 1 else shareOfFirst first n (x :: xs) ys

/-- The merge from both ends at once: as many elements as the left list has are merged upwards, as
many downwards, and what both leave stands between them. When the two passes have taken one element
twice and left out another, the test is no total preorder, and there is no result. -/
def mergeInward? {α : Type} (less : α → α → Bool) (left right : List α) : Option (List α) :=
  let n := left.length
  let lowLeft := shareOfFirst (fun x y => !less y x) n left right
  let highRight := shareOfFirst (fun y x => !less y x) n right.reverse left.reverse
  if lowLeft ≤ highRight ∧ n - lowLeft ≤ right.length - highRight then
    some ((mergeUp less left right).take n ++
      ((left.take highRight).drop lowLeft ++
        ((right.take (right.length - highRight)).drop (n - lowLeft) ++
          (mergeDown less left right).drop right.length)))
  else none

end JsonQuery.Sorting
