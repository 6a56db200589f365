import JsonQuery.Sorting.Insertion
import JsonQuery.Sorting.Merge

/-!
Sorting a short list: both halves by insertion, then one merge from both ends. A half of a list of
eight or more starts with four elements that are put into order by five comparisons.
-/
namespace JsonQuery.Sorting

/-- The greatest length that is sorted in this way. -/
def smallLength : Nat := 32

/-- Four elements in ascending order. Two pairs are ordered, then the lesser ones and the greater
ones are compared with each other, and last the two that are neither least nor greatest. -/
def sortFour {α : Type} (less : α → α → Bool) (p q r s : α) : List α :=
  let (a, b) := if less q p then (q, p) else (p, q)
  let (c, d) := if less s r then (s, r) else (r, s)
  let low := less c a
  let high := less d b
  let least := if low then c else a
  let greatest := if high then b else d
  let x := if low then a else if high then c else b
  let y := if high then d else if low then b else c
  if less y x then [least, y, x, greatest] else [least, x, y, greatest]

/-- One half in ascending order. -/
def sortHalf {α : Type} (less : α → α → Bool) : List α → List α
  | p :: q :: r :: s :: rest => insertEach less (sortFour less p q r s) rest
  | few => insertionSort less few

/-- A short list in ascending order, unless the merge of its halves fails. The right half is the
longer one. -/
def sortSmall? {α : Type} (less : α → α → Bool) (xs : List α) : Option (List α) :=
  let left := xs.take (xs.length / 2)
  let right := xs.drop (xs.length / 2)
  if xs.length < 8 then mergeInward? less (insertionSort less left) (insertionSort less right)
  else mergeInward? less (sortHalf less left) (sortHalf less right)

end JsonQuery.Sorting
