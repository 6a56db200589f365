import JsonQuery.Sorting.Pivot
import JsonQuery.Sorting.Runs

/-!
Sorting by splitting. A list is split at one of its elements into those that are less and the
others, both in the order given, and each part is sorted in turn. An element that nothing is less
than is split off together with its equals, so that lists with many equal elements stay cheap.
-/
namespace JsonQuery.Sorting

/-- The elements in ascending order. No element is less than `bound`, and the list is split at most
`budget` times along each path; what is still long then is sorted by runs. -/
def splitSort? {α : Type} (less : α → α → Bool) : Nat → Option α → List α → Option (List α)
  | 0, _, xs =>
    if xs.length ≤ smallLength then sortSmall? less xs
    else sortRuns? less true (fun items => some (insertionSort less items)) xs
  | budget + 1, bound, xs =>
    if xs.length ≤ smallLength then sortSmall? less xs
    else
      let position := pivotPosition less xs.toArray
      let before := xs.take position
      match xs.drop position with
      | [] => some (insertionSort less xs)
      | pivot :: behind =>
        let lower := (before ++ behind).filter fun x => less x pivot
        if lower.isEmpty || bound.any fun b => !less b pivot then do
          let equals := before.filter (fun x => !less pivot x) ++
            pivot :: behind.filter fun x => !less pivot x
          let upper := (before ++ behind).filter fun x => less pivot x
          let greater ← splitSort? less budget none upper
          return equals ++ greater
        else do
          let upper := before.filter (fun x => !less x pivot) ++
            pivot :: behind.filter fun x => !less x pivot
          let front ← splitSort? less budget bound lower
          let rest ← splitSort? less budget (some pivot) upper
          return front ++ rest

end JsonQuery.Sorting
