import JsonQuery.Sorting.Small

/-!
Sorting by runs. The input is cut into runs, some of them in order already, and neighbouring runs
are joined along a merge tree that is close to the balanced one. Two runs that are not in order
are only put together; they are sorted once a merge needs them, or at the end. When a part cannot be
sorted, because the test turns out to be no total preorder, nothing can.
-/
namespace JsonQuery.Sorting

/-- A stretch of the input, and whether it is in ascending order already. -/
structure Run (α : Type) where
  items : List α
  ordered : Bool

/-- The items in ascending order, where `sort?` sorts those that are in none. -/
def Run.sorted? {α : Type} (sort? : List α → Option (List α)) (run : Run α) : Option (List α) :=
  if run.ordered then some run.items else sort? run.items

/-- Two neighbouring runs as one. -/
def Run.join? {α : Type} (less : α → α → Bool) (sort? : List α → Option (List α))
    (left right : Run α) : Option (Run α) :=
  if left.ordered || right.ordered then do
    let front ← left.sorted? sort?
    let behind ← right.sorted? sort?
    return ⟨mergeShorter less front behind, true⟩
  else some ⟨left.items ++ right.items, false⟩

/-- The longest part of `x :: rest` from its front on in which each element follows the one before
it, and the elements behind that part. -/
def splitChain {α : Type} (follows : α → α → Bool) (x : α) : List α → List α × List α
  | [] => ([x], [])
  | y :: rest =>
    if follows x y then
      let (chain, behind) := splitChain follows y rest
      (x :: chain, behind)
    else ([x], y :: rest)

/-- The strictly descending part at the front, turned round, or else the ascending one, and the
elements behind it. -/
def splitOrdered {α : Type} (less : α → α → Bool) : List α → List α × List α
  | [] => ([], [])
  | [x] => ([x], [])
  | x :: y :: rest =>
    if less y x then
      let (chain, behind) := splitChain (fun a b => less b a) x (y :: rest)
      (chain.reverse, behind)
    else splitChain (fun a b => !less b a) x (y :: rest)

/-- The length from which on a part that is in order counts as a run: at most half of a short
input, then 64, and about the square root of a long one. -/
def goodLength (length : Nat) : Nat :=
  if length ≤ 4096 then min (length - length / 2) 64
  else
    let shift := (1 + length.log2) / 2
    ((1 <<< shift) + (length >>> shift)) / 2

/-- The first run, and the elements behind it. When the elements at the front are not in order for
long enough, an eager cut sorts a few of them, and another cut leaves them as they are. -/
def cutRun? {α : Type} (less : α → α → Bool) (eager : Bool) (good : Nat) (xs : List α) :
    Option (Run α × List α) :=
  let (chain, behind) := splitOrdered less xs
  if good ≤ chain.length then some (⟨chain, true⟩, behind)
  else if eager then do
    let sorted ← sortSmall? less (xs.take smallLength)
    return (⟨sorted, true⟩, xs.drop smallLength)
  else some (⟨xs.take good, false⟩, xs.drop good)

/-- All runs from left to right. The budget bounds their number. -/
def cutRuns? {α : Type} (less : α → α → Bool) (eager : Bool) (good : Nat) :
    Nat → List α → Option (List (Run α))
  | _, [] => some []
  | 0, xs => some [⟨xs, false⟩]
  | budget + 1, xs => do
    let (run, behind) ← cutRun? less eager good xs
    let others ← cutRuns? less eager good budget behind
    return run :: others

/-- The depth in the merge tree at which the run from `start` to `middle` meets the one from there
to `stop`: the number of leading binary digits, of 64, that twice the midpoints of both share,
after they are scaled so that the whole input measures 2^62. -/
def meetingDepth (length start middle stop : Nat) : Nat :=
  let scale := ((1 <<< 62) + length - 1) / length
  63 - ((scale * (start + middle)) ^^^ (scale * (middle + stop))).log2

/-- Joins a run with those to its left that it meets at this depth or a greater one. Each waiting
run carries the depth at which it meets what stands to its right, the nearest first. -/
def collapse? {α : Type} (less : α → α → Bool) (sort? : List α → Option (List α)) (depth : Nat) :
    List (Run α × Nat) → Run α → Option (List (Run α × Nat) × Run α)
  | [], run => some ([], run)
  | (left, meeting) :: waiting, run =>
    if depth ≤ meeting then do
      let joined ← left.join? less sort? run
      collapse? less sort? depth waiting joined
    else some ((left, meeting) :: waiting, run)

/-- Joins runs from left to right. `run` ends at `stop`, and `waiting` are the runs to its left. -/
def joinRuns? {α : Type} (less : α → α → Bool) (sort? : List α → Option (List α)) (length : Nat)
    (waiting : List (Run α × Nat)) (run : Run α) (stop : Nat) : List (Run α) → Option (Run α)
  | [] => do
    let (_, joined) ← collapse? less sort? 0 waiting run
    return joined
  | next :: rest => do
    let nextStop := stop + next.items.length
    let depth := meetingDepth length (stop - run.items.length) stop nextStop
    let (waiting, joined) ← collapse? less sort? depth waiting run
    joinRuns? less sort? length ((joined, depth) :: waiting) next nextStop rest

/-- The elements in ascending order, where `sort?` sorts the runs that are in none. -/
def sortRuns? {α : Type} (less : α → α → Bool) (eager : Bool) (sort? : List α → Option (List α))
    (xs : List α) : Option (List α) := do
  match ← cutRuns? less eager (goodLength xs.length) xs.length xs with
  | [] => return []
  | run :: rest =>
    let joined ← joinRuns? less sort? xs.length [] run run.items.length rest
    joined.sorted? sort?

end JsonQuery.Sorting
