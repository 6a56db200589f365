/-!
The greatest and the least element of a list. Of equal elements the last counts as the greatest
and the first as the least, as they stand at the ends of the sorted list.
-/
namespace JsonQuery

/-- The last of the greatest elements: a later element wins unless it is less. -/
def lastGreatest? {α : Type} (less : α → α → Bool) : List α → Option α
  | [] => none
  | x :: rest => some (rest.foldl (fun best y => if less y best then best else y) x)

/-- The first of the least elements: a later element wins only when it is less. -/
def firstLeast? {α : Type} (less : α → α → Bool) : List α → Option α
  | [] => none
  | x :: rest => some (rest.foldl (fun best y => if less y best then y else best) x)

end JsonQuery
