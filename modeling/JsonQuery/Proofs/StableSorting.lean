import Mathlib.Data.List.Basic
import Mathlib.Data.List.Forall2
import Mathlib.Data.List.Perm.Basic
import JsonQuery.Sorting.Extreme
import JsonQuery.Sorting.Stable

/-! Sorting loses and repeats nothing, whatever the test says. Each step, from the insertion of one
element to the merge tree of the runs, permutes its elements if it has a result, also where the test
is no order. And only the test matters: lists that compare alike, element by element, are sorted
alike, or neither of them is. -/
namespace JsonQuery
namespace Sorting
open scoped List

variable {α : Type} {less : α → α → Bool}

/-! ## Insertion -/

theorem insert_descending_perm (x : α) (xs : List α) : insertDescending less x xs ~ x :: xs := by
  induction xs with
  | nil => exact .refl _
  | cons y rest ih =>
    unfold insertDescending
    split
    · exact (ih.cons y).trans (.swap x y rest)
    · exact .refl _

private theorem insert_each_perm (sorted xs : List α) :
    insertEach less sorted xs ~ sorted ++ xs := by
  have inserted : ∀ descending : List α,
      xs.foldl (fun descending x => insertDescending less x descending) descending ~
        xs ++ descending := by
    induction xs with
    | nil => exact fun _ => .refl _
    | cons x rest ih =>
      intro descending
      calc _ ~ rest ++ insertDescending less x descending := ih _
        _ ~ rest ++ x :: descending := (insert_descending_perm x descending).append_left rest
        _ ~ x :: (rest ++ descending) := List.perm_middle
  calc insertEach less sorted xs ~ _ := List.reverse_perm _
    _ ~ xs ++ sorted.reverse := inserted _
    _ ~ xs ++ sorted := (List.reverse_perm sorted).append_left xs
    _ ~ sorted ++ xs := List.perm_append_comm

theorem insertion_sort_perm (xs : List α) : insertionSort less xs ~ xs :=
  insert_each_perm [] xs

/-! ## Merging -/

theorem merge_up_perm (left right : List α) : mergeUp less left right ~ left ++ right :=
  List.merge_perm_append _

theorem merge_down_perm (left right : List α) : mergeDown less left right ~ left ++ right := by
  calc mergeDown less left right ~ _ := List.reverse_perm _
    _ ~ right.reverse ++ left.reverse := List.merge_perm_append _
    _ ~ right ++ left := (List.reverse_perm right).append (List.reverse_perm left)
    _ ~ left ++ right := List.perm_append_comm

private theorem merge_shorter_perm (left right : List α) :
    mergeShorter less left right ~ left ++ right := by
  unfold mergeShorter
  split
  · exact merge_up_perm left right
  · exact merge_down_perm left right

theorem share_le (first : α → α → Bool) (n : Nat) (xs ys : List α) :
    shareOfFirst first n xs ys ≤ n := by
  fun_induction shareOfFirst first n xs ys with
  | case1 | case2 => exact Nat.zero_le _
  | case3 n x xs ih | case4 n x xs y ys before ih => exact Nat.succ_le_succ ih
  | case5 n x xs y ys behind ih => exact Nat.le_succ_of_le ih

/-- The first elements of a merge are first elements of both lists, as many of the first as its
share says. -/
theorem take_merge_perm (first : α → α → Bool) (n : Nat) (xs ys : List α) :
    (xs.merge ys first).take n ~
      xs.take (shareOfFirst first n xs ys) ++ ys.take (n - shareOfFirst first n xs ys) := by
  fun_induction shareOfFirst first n xs ys with
  | case1 => simp
  | case2 n ys => simp
  | case3 n x xs ih =>
    rw [List.merge_right, List.take_nil, List.append_nil] at ih ⊢
    exact ih.cons x
  | case4 n x xs y ys before ih =>
    rw [List.cons_merge_cons, if_pos before, Nat.succ_sub_succ]
    exact ih.cons x
  | case5 n x xs y ys behind ih =>
    rw [List.cons_merge_cons, if_neg behind, Nat.succ_sub (share_le first n (x :: xs) ys)]
    exact (ih.cons y).trans List.perm_middle.symm

/-- The last elements of a downward merge are last elements of both lists. -/
theorem drop_merge_down_perm (less : α → α → Bool) (left right : List α) :
    let share := shareOfFirst (fun y x => !less y x) left.length right.reverse left.reverse
    (mergeDown less left right).drop right.length ~
      right.drop (right.length - share) ++ left.drop share := by
  intro share
  have enough : share ≤ left.length := share_le _ _ _ _
  have whole : (right.reverse.merge left.reverse fun y x => !less y x).length - right.length =
      left.length := by
    rw [List.length_merge, List.length_reverse, List.length_reverse, Nat.add_sub_cancel_left]
  calc (mergeDown less left right).drop right.length
    _ = ((right.reverse.merge left.reverse fun y x => !less y x).take left.length).reverse := by
      rw [mergeDown, List.drop_reverse, whole]
    _ ~ _ := List.reverse_perm _
    _ ~ right.reverse.take share ++ left.reverse.take (left.length - share) :=
      take_merge_perm _ _ _ _
    _ = (right.drop (right.length - share)).reverse ++ (left.drop share).reverse := by
      rw [List.take_reverse, List.take_reverse, Nat.sub_sub_self enough]
    _ ~ right.drop (right.length - share) ++ left.drop share :=
      (List.reverse_perm _).append (List.reverse_perm _)

/-- A list from its front, what is in the middle, and its end. -/
theorem three_parts (xs : List α) {low high : Nat} (inOrder : low ≤ high) :
    xs.take low ++ (xs.take high).drop low ++ xs.drop high = xs := by
  have front : xs.take low = (xs.take high).take low := by
    rw [List.take_take, Nat.min_eq_left inOrder]
  rw [front, List.take_append_drop, List.take_append_drop]

theorem merge_inward_perm (merged : mergeInward? less left right = some ys) :
    ys ~ left ++ right := by
  unfold mergeInward? at merged
  dsimp only at merged
  split at merged
  · rename_i once
    cases merged
    obtain ⟨fewLeft, fewRight⟩ := once
    have low := take_merge_perm (fun x y => !less y x) left.length left right
    have high := drop_merge_down_perm less left right
    have leftParts := three_parts left fewLeft
    have rightParts := three_parts right fewRight
    refine (low.append ((high.append_left _).append_left _)).trans ?_
    classical
    rw [List.perm_iff_count]
    intro x
    have inLeft := congrArg (List.count x) leftParts
    have inRight := congrArg (List.count x) rightParts
    simp only [List.count_append] at inLeft inRight ⊢
    omega
  · cases merged

/-! ## Short lists -/

theorem sort_four_perm (p q r s : α) : sortFour less p q r s ~ [p, q, r, s] := by
  classical
  rw [List.perm_iff_count]
  intro x
  unfold sortFour
  cases less q p <;> cases less s r <;> dsimp only <;> split_ifs <;>
    simp only [List.count_cons, List.count_nil] <;> omega

theorem sort_half_perm (xs : List α) : sortHalf less xs ~ xs := by
  unfold sortHalf
  split
  · rename_i p q r s rest
    exact (insert_each_perm _ rest).trans ((sort_four_perm p q r s).append_right rest)
  · exact insertion_sort_perm xs

private theorem sort_small_perm (sorted : sortSmall? less xs = some ys) : ys ~ xs := by
  have halves : xs.take (xs.length / 2) ++ xs.drop (xs.length / 2) = xs :=
    List.take_append_drop _ _
  unfold sortSmall? at sorted
  dsimp only at sorted
  split at sorted
  · calc ys ~ _ ++ _ := merge_inward_perm sorted
      _ ~ _ ++ _ := (insertion_sort_perm _).append (insertion_sort_perm _)
      _ = xs := halves
  · calc ys ~ _ ++ _ := merge_inward_perm sorted
      _ ~ _ ++ _ := (sort_half_perm _).append (sort_half_perm _)
      _ = xs := halves

/-! ## Runs -/

theorem split_chain_append (follows : α → α → Bool) (x : α) (xs : List α) :
    (splitChain follows x xs).1 ++ (splitChain follows x xs).2 = x :: xs := by
  induction xs generalizing x with
  | nil => rfl
  | cons y rest ih =>
    unfold splitChain
    split
    · exact congrArg (x :: ·) (ih y)
    · rfl

private theorem split_ordered_perm (xs : List α) :
    (splitOrdered less xs).1 ++ (splitOrdered less xs).2 ~ xs := by
  unfold splitOrdered
  split
  · exact .refl _
  · exact .refl _
  · rename_i x y rest
    split
    · rw [← split_chain_append (fun a b => less b a) x (y :: rest)]
      exact (List.reverse_perm _).append_right _
    · rw [split_chain_append]

theorem cut_run_perm (cut : cutRun? less eager good xs = some (run, behind)) :
    run.items ++ behind ~ xs := by
  unfold cutRun? at cut
  dsimp only at cut
  split_ifs at cut
  · cases cut
    exact split_ordered_perm xs
  · obtain ⟨ys, sorted, rfl, rfl⟩ := by simpa [Option.bind_eq_some_iff] using cut
    calc ys ++ xs.drop smallLength ~ xs.take smallLength ++ xs.drop smallLength :=
          (sort_small_perm sorted).append_right _
      _ = xs := List.take_append_drop _ _
  · cases cut
    rw [List.take_append_drop]

/-- The items of runs, from left to right. -/
def itemsOf (runs : List (Run α)) : List α :=
  runs.flatMap Run.items

private theorem cut_runs_perm (cut : cutRuns? less eager good budget xs = some runs) :
    itemsOf runs ~ xs := by
  fun_induction cutRuns? less eager good budget xs generalizing runs with
  | case1 =>
    cases cut
    exact .refl _
  | case2 xs nonempty =>
    cases cut
    simp [itemsOf]
  | case3 budget xs nonempty ih =>
    obtain ⟨⟨run, behind⟩, first, cut⟩ := Option.bind_eq_some_iff.mp cut
    obtain ⟨others, rest, same⟩ := Option.bind_eq_some_iff.mp cut
    cases same
    exact ((ih behind rest).append_left run.items).trans (cut_run_perm first)

section

variable {sort? : List α → Option (List α)} (permutes : ∀ xs ys, sort? xs = some ys → ys ~ xs)
include permutes

theorem sorted_perm {run : Run α} (sorted : run.sorted? sort? = some ys) : ys ~ run.items := by
  unfold Run.sorted? at sorted
  split at sorted
  · cases sorted
    exact .refl _
  · exact permutes _ _ sorted

theorem join_perm {left right run : Run α} (joined : left.join? less sort? right = some run) :
    run.items ~ left.items ++ right.items := by
  unfold Run.join? at joined
  split at joined
  · obtain ⟨front, first, joined⟩ := Option.bind_eq_some_iff.mp joined
    obtain ⟨behind, second, same⟩ := Option.bind_eq_some_iff.mp joined
    cases same
    calc mergeShorter less front behind ~ front ++ behind := merge_shorter_perm _ _
      _ ~ left.items ++ right.items := (sorted_perm permutes first).append
        (sorted_perm permutes second)
  · cases joined
    exact .refl _

/-- The items of waiting runs from left to right, where the last run stands first. -/
def waitingItems (waiting : List (Run α × Nat)) : List α :=
  waiting.foldr (fun left items => items ++ left.1.items) []

private theorem collapse_perm {waiting : List (Run α × Nat)} {run : Run α}
    (collapsed : collapse? less sort? depth waiting run = some (others, joined)) :
    waitingItems others ++ joined.items ~ waitingItems waiting ++ run.items := by
  induction waiting generalizing run with
  | nil =>
    cases collapsed
    exact .refl _
  | cons nearest waiting ih =>
    obtain ⟨left, meeting⟩ := nearest
    unfold collapse? at collapsed
    split at collapsed
    · obtain ⟨both, met, collapsed⟩ := Option.bind_eq_some_iff.mp collapsed
      calc _ ~ waitingItems waiting ++ both.items := ih collapsed
        _ ~ waitingItems waiting ++ (left.items ++ run.items) :=
          (join_perm permutes met).append_left _
        _ = waitingItems ((left, meeting) :: waiting) ++ run.items := (List.append_assoc ..).symm
    · cases collapsed
      exact .refl _

omit permutes in
/-- At the root of the merge tree every waiting run is joined. -/
theorem collapse_root {waiting : List (Run α × Nat)} {run : Run α}
    (collapsed : collapse? less sort? 0 waiting run = some (others, joined)) : others = [] := by
  induction waiting generalizing run with
  | nil =>
    cases collapsed
    rfl
  | cons left waiting ih =>
    rw [collapse?, if_pos (Nat.zero_le _)] at collapsed
    obtain ⟨both, -, collapsed⟩ := Option.bind_eq_some_iff.mp collapsed
    exact ih collapsed

private theorem join_runs_perm {waiting : List (Run α × Nat)} {run whole : Run α}
    {rest : List (Run α)}
    (joined : joinRuns? less sort? length waiting run stop rest = some whole) :
    whole.items ~ waitingItems waiting ++ run.items ++ itemsOf rest := by
  induction rest generalizing waiting run stop with
  | nil =>
    obtain ⟨⟨others, last⟩, collapsed, same⟩ := Option.bind_eq_some_iff.mp joined
    cases same
    have kept := collapse_perm permutes collapsed
    rw [collapse_root collapsed] at kept
    simpa [itemsOf, waitingItems] using kept
  | cons next rest ih =>
    obtain ⟨⟨others, last⟩, collapsed, joined⟩ := Option.bind_eq_some_iff.mp joined
    calc _ ~ _ := ih joined
      _ = waitingItems others ++ last.items ++ itemsOf (next :: rest) := by
        simp [waitingItems, itemsOf]
      _ ~ waitingItems waiting ++ run.items ++ itemsOf (next :: rest) :=
        (collapse_perm permutes collapsed).append_right _

private theorem sort_runs_perm (sorted : sortRuns? less eager sort? xs = some ys) : ys ~ xs := by
  obtain ⟨runs, cut, sorted⟩ := Option.bind_eq_some_iff.mp sorted
  have parts := cut_runs_perm cut
  cases runs with
  | nil =>
    cases sorted
    exact parts
  | cons run rest =>
    obtain ⟨whole, joined, last⟩ := Option.bind_eq_some_iff.mp sorted
    calc ys ~ whole.items := sorted_perm permutes last
      _ ~ run.items ++ itemsOf rest := join_runs_perm permutes joined
      _ ~ xs := parts

end

/-! ## Splitting -/

/-- The elements that pass a test and the others make up a list again, an element in its middle
staying with the others. -/
theorem divide_perm (test : α → Bool) (before : List α) (pivot : α) (behind : List α) :
    (before ++ behind).filter test ++
        (before.filter (!test ·) ++ pivot :: behind.filter (!test ·)) ~ before ++ pivot :: behind := by
  calc _ ~ (before ++ behind).filter test ++ pivot :: (before ++ behind).filter (!test ·) := by
        rw [List.filter_append (p := (!test ·))]
        exact List.perm_middle.append_left _
    _ ~ pivot :: ((before ++ behind).filter test ++ (before ++ behind).filter (!test ·)) :=
      List.perm_middle
    _ ~ pivot :: (before ++ behind) := (List.filter_append_perm test _).cons pivot
    _ ~ before ++ pivot :: behind := List.perm_middle.symm

theorem split_sort_perm (sorted : splitSort? less budget bound xs = some ys) : ys ~ xs := by
  fun_induction splitSort? less budget bound xs generalizing ys with
  | case1 bound xs short => exact sort_small_perm sorted
  | case2 bound xs long =>
    refine sort_runs_perm (fun items others same => ?_) sorted
    cases same
    exact insertion_sort_perm items
  | case3 budget bound xs short => exact sort_small_perm sorted
  | case4 budget bound xs long position =>
    cases sorted
    exact insertion_sort_perm xs
  | case5 budget bound xs long position before pivot behind cut lower least equals upper =>
    rename_i ih
    obtain ⟨greater, rest, same⟩ := Option.bind_eq_some_iff.mp sorted
    cases same
    calc equals ++ greater ~ equals ++ upper := (ih rest).append_left equals
      _ ~ upper ++ equals := List.perm_append_comm
      _ ~ before ++ pivot :: behind := divide_perm (less pivot ·) before pivot behind
      _ = xs := by rw [← cut, List.take_append_drop]
  | case6 budget bound xs long position before pivot behind cut lower split upper ihLower =>
    rename_i ihUpper
    obtain ⟨front, first, sorted⟩ := Option.bind_eq_some_iff.mp sorted
    obtain ⟨rest, second, same⟩ := Option.bind_eq_some_iff.mp sorted
    cases same
    calc front ++ rest ~ lower ++ upper := (ihLower first).append (ihUpper second)
      _ ~ before ++ pivot :: behind := divide_perm (less · pivot) before pivot behind
      _ = xs := by rw [← cut, List.take_append_drop]

theorem sort_positions_perm {before : Nat → Nat → Bool}
    (sorted : sortPositions? before length = some positions) : positions ~ List.range length := by
  unfold sortPositions? at sorted
  split at sorted
  · cases sorted
    exact insertion_sort_perm _
  · exact sort_runs_perm (fun _ _ settled => split_sort_perm settled) sorted

end Sorting

/-- The elements at all positions are the elements. -/
theorem elements_at_positions {α : Type} (xs : List α) :
    (List.range xs.length).filterMap (xs[·]?) = xs := by
  induction xs with
  | nil => rfl
  | cons x rest ih =>
    rw [List.length_cons, List.range_succ_eq_map, List.filterMap_cons_some (List.getElem?_cons_zero),
      List.filterMap_map]
    exact congrArg (x :: ·) ih

open scoped List in
/-- Sorting by any test permutes the elements, if it does not give up. -/
theorem sort_stable_perm {α : Type} {less : α → α → Bool} {xs ys : List α}
    (sorted : sortStable? less xs = some ys) : ys ~ xs := by
  have whole : (List.range xs.toArray.size).filterMap (xs.toArray[·]?) = xs := by
    simpa using elements_at_positions xs
  obtain ⟨positions, arranged, rfl⟩ := Option.map_eq_some_iff.mp sorted
  calc _ ~ _ := (Sorting.sort_positions_perm arranged).filterMap _
    _ = xs := whole

section

variable {α β : Type} {agree : α → β → Prop} {less : α → α → Bool} {otherLess : β → β → Bool}
  {xs : List α} {ys : List β}

/-- Related elements compare alike. -/
def ComparesAlike (agree : α → β → Prop) (less : α → α → Bool) (otherLess : β → β → Bool) : Prop :=
  ∀ a b, agree a b → ∀ c d, agree c d → less a c = otherLess b d

theorem related_at (related : List.Forall₂ agree xs ys) (i : Nat) :
    Option.Rel agree xs[i]? ys[i]? := by
  induction related generalizing i with
  | nil => exact .none
  | cons first _ ih =>
    cases i with
    | zero => exact .some first
    | succ i => exact ih i

/-- Positions that are sorted alike hold related elements. -/
theorem positions_related {before otherBefore : Nat → Nat → Bool}
    (related : List.Forall₂ agree xs ys) (same : ∀ i j, before i j = otherBefore i j) :
    Option.Rel (List.Forall₂ agree)
      ((Sorting.sortPositions? before xs.length).map (·.filterMap (xs[·]?)))
      ((Sorting.sortPositions? otherBefore ys.length).map (·.filterMap (ys[·]?))) := by
  rw [funext₂ same, related.length_eq]
  cases Sorting.sortPositions? otherBefore ys.length with
  | none => exact .none
  | some positions =>
    refine .some ?_
    induction positions with
    | nil => exact .nil
    | cons i positions ih =>
      have element := related_at related i
      dsimp only
      rw [List.filterMap_cons, List.filterMap_cons]
      generalize xs[i]? = x at element
      generalize ys[i]? = y at element
      cases element with
      | none => exact ih
      | some element => exact .cons element ih

theorem sort_stable_related (alike : ComparesAlike agree less otherLess)
    (related : List.Forall₂ agree xs ys) :
    Option.Rel (List.Forall₂ agree) (sortStable? less xs) (sortStable? otherLess ys) := by
  unfold sortStable?
  simp only [List.getElem?_toArray, List.size_toArray]
  refine positions_related related fun i j => ?_
  have first := related_at related i
  have second := related_at related j
  generalize xs[i]? = a at first ⊢
  generalize ys[i]? = b at first ⊢
  generalize xs[j]? = c at second ⊢
  generalize ys[j]? = d at second ⊢
  cases first with
  | none => rfl
  | some first =>
    cases second with
    | none => rfl
    | some second => exact alike _ _ first _ _ second

/-- The choice between the best element so far and the next one falls alike. -/
theorem last_greatest_related (alike : ComparesAlike agree less otherLess)
    (related : List.Forall₂ agree xs ys) :
    Option.Rel agree (lastGreatest? less xs) (lastGreatest? otherLess ys) := by
  cases related with
  | nil => exact .none
  | cons first rest =>
    refine .some (List.rel_foldl (fun best otherBest same x y next => ?_) first rest)
    rw [alike _ _ next _ _ same]
    split
    · exact same
    · exact next

theorem first_least_related (alike : ComparesAlike agree less otherLess)
    (related : List.Forall₂ agree xs ys) :
    Option.Rel agree (firstLeast? less xs) (firstLeast? otherLess ys) := by
  cases related with
  | nil => exact .none
  | cons first rest =>
    refine .some (List.rel_foldl (fun best otherBest same x y next => ?_) first rest)
    rw [alike _ _ next _ _ same]
    split
    · exact next
    · exact same

end

end JsonQuery
