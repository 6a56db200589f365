import Mathlib.Data.List.Perm.Basic
import JsonQuery.Proofs.SortedOrder

/-! Runs and splitting sort stably, and so does the whole sort, which never gives up on a total
preorder. A run that is called ordered ascends, and the runs together keep the order of alike elements;
both survive each merge. Splitting keeps that order too, since elements that are alike fall to the same
side. -/
namespace JsonQuery
namespace Sorting
open scoped List

variable {α : Type} {P : α → Prop} {less : α → α → Bool}

/-! ## Cutting -/

private theorem split_chain_head (follows : α → α → Bool) (x : α) (xs : List α) :
    ∃ rest, (splitChain follows x xs).1 = x :: rest := by
  cases xs with
  | nil => exact ⟨[], rfl⟩
  | cons y rest =>
    unfold splitChain
    split
    · exact ⟨_, rfl⟩
    · exact ⟨[], rfl⟩

private theorem split_chain_inside (follows : α → α → Bool) (inside : ∀ y ∈ x :: xs, P y) :
    ∀ z ∈ (splitChain follows x xs).1, P z := by
  intro z member
  apply inside
  rw [← split_chain_append follows x xs]
  exact List.mem_append_left _ member

/-- In a chain of a transitive relation each element follows all before it. -/
theorem split_chain_pairwise (follows : α → α → Bool)
    (through : ∀ {a b c}, P a → P b → P c → follows a b = true → follows b c = true →
      follows a c = true)
    (inside : ∀ y ∈ x :: xs, P y) :
    (splitChain follows x xs).1.Pairwise fun a b => follows a b = true := by
  induction xs generalizing x with
  | nil => exact List.pairwise_singleton ..
  | cons y rest ih =>
    have behind : ∀ z ∈ y :: rest, P z := fun z member => inside z (List.mem_cons_of_mem x member)
    have chained := ih behind
    unfold splitChain
    split
    · rename_i next
      refine List.pairwise_cons.mpr ⟨fun z member => ?_, chained⟩
      obtain ⟨tail, head⟩ := split_chain_head follows y rest
      have here := split_chain_inside follows behind z member
      rw [head] at chained member
      rcases List.mem_cons.mp member with rfl | further
      · exact next
      · exact through (inside x List.mem_cons_self) (behind y List.mem_cons_self) here next
          (List.rel_of_pairwise_cons chained further)
    · exact List.pairwise_singleton ..

section Cutting

variable (order : Preorders P less)
include order

/-- Turning a strictly descending list round exchanges no elements that are alike. -/
theorem reverse_descending_same (inside : ∀ x ∈ xs, P x)
    (descending : xs.Pairwise fun a b => less b a = true) : SameOrder P less xs.reverse xs := by
  induction xs with
  | nil => exact .refl _
  | cons x rest ih =>
    obtain ⟨greatest, down⟩ := List.pairwise_cons.mp descending
    have behind : ∀ y ∈ rest, P y := fun y member => inside y (List.mem_cons_of_mem x member)
    have passed : SameOrder P less (x :: rest) (rest ++ [x]) :=
      .pass order (inside x List.mem_cons_self) behind fun y member =>
        apart_of_greater (greatest y member)
    rw [List.reverse_cons]
    exact ((ih behind down).append_right [x]).trans passed.symm

private theorem split_ordered_sorts (inside : ∀ x ∈ xs, P x) :
    Ascending less (splitOrdered less xs).1 ∧
      SameOrder P less ((splitOrdered less xs).1 ++ (splitOrdered less xs).2) xs := by
  unfold splitOrdered
  split
  · exact ⟨.nil, .refl _⟩
  · exact ⟨List.pairwise_singleton .., .refl _⟩
  · rename_i x y rest
    split
    · have parts := split_chain_append (fun a b => less b a) x (y :: rest)
      have descending := split_chain_pairwise (P := P) (fun a b => less b a)
        (fun first second third forth back =>
          order.less_behind third second first back (order.asymm second first forth)) inside
      have among := split_chain_inside (fun a b => less b a) inside
      refine ⟨List.pairwise_reverse.mpr (descending.imp_of_mem fun first second below =>
        order.asymm (among _ second) (among _ first) below), ?_⟩
      have turned := (reverse_descending_same order among descending).append_right
        (splitChain (fun a b => less b a) x (y :: rest)).2
      rwa [parts] at turned
    · have ascending := split_chain_pairwise (P := P) (fun a b => !less b a)
        (fun first second third forth back => by
          rw [Bool.not_eq_true'] at forth back ⊢
          exact order.trans first second third forth back) inside
      refine ⟨ascending.imp fun follows => (Bool.not_eq_true' _).mp follows, ?_⟩
      rw [split_chain_append]
      exact .refl _

/-- The items of a run are elements in question, and they ascend if the run is called ordered. -/
structure Run.Sound (P : α → Prop) (less : α → α → Bool) (run : Run α) : Prop where
  inside : ∀ x ∈ run.items, P x
  ascending : run.ordered = true → Ascending less run.items

private theorem cut_run_sound (eager : Bool) (good : Nat) (inside : ∀ x ∈ xs, P x) :
    ∃ run behind, cutRun? less eager good xs = some (run, behind) ∧ run.Sound P less ∧
      SameOrder P less (run.items ++ behind) xs := by
  suffices ∃ run behind, cutRun? less eager good xs = some (run, behind) ∧
      (run.ordered = true → Ascending less run.items) ∧
      SameOrder P less (run.items ++ behind) xs by
    obtain ⟨run, behind, cut, ascending, same⟩ := this
    refine ⟨run, behind, cut, ⟨fun x member => ?_, ascending⟩, same⟩
    exact inside x ((cut_run_perm cut).mem_iff.mp (List.mem_append_left behind member))
  unfold cutRun?
  dsimp only
  split
  · obtain ⟨ascending, same⟩ := split_ordered_sorts order inside
    exact ⟨_, _, rfl, fun _ => ascending, same⟩
  · split
    · obtain ⟨ys, sorted, sorts⟩ := sort_small_sorts order fun x member =>
        inside x (List.mem_of_mem_take (i := smallLength) member)
      rw [sorted]
      refine ⟨_, _, rfl, fun _ => sorts.ascending, ?_⟩
      have whole := sorts.same.append_right (xs.drop smallLength)
      rwa [List.take_append_drop] at whole
    · refine ⟨_, _, rfl, fun claimed => absurd claimed Bool.false_ne_true, ?_⟩
      rw [List.take_append_drop]
      exact .refl _

private theorem cut_runs_sound (eager : Bool) (good budget : Nat) (inside : ∀ x ∈ xs, P x) :
    ∃ runs, cutRuns? less eager good budget xs = some runs ∧
      (∀ run ∈ runs, run.Sound P less) ∧ SameOrder P less (itemsOf runs) xs := by
  induction budget generalizing xs with
  | zero =>
    cases xs with
    | nil => exact ⟨[], rfl, fun run member => (List.not_mem_nil member).elim, .refl _⟩
    | cons x rest =>
      refine ⟨[⟨x :: rest, false⟩], rfl, fun run member => ?_, by simpa [itemsOf] using .refl _⟩
      rw [List.mem_singleton.mp member]
      exact ⟨inside, fun claimed => absurd claimed Bool.false_ne_true⟩
  | succ budget ih =>
    cases xs with
    | nil => exact ⟨[], rfl, fun run member => (List.not_mem_nil member).elim, .refl _⟩
    | cons x rest =>
      obtain ⟨run, behind, cut, sound, same⟩ := cut_run_sound order eager good inside
      have parts := cut_run_perm cut
      obtain ⟨runs, others, sounds, kept⟩ := ih fun y member =>
        inside y (parts.mem_iff.mp (List.mem_append_right run.items member))
      refine ⟨run :: runs, ?_, List.forall_mem_cons.mpr ⟨sound, sounds⟩,
        (kept.append_left run.items).trans same⟩
      simp only [cutRuns?, cut, Option.bind_eq_bind, Option.bind_some, others]
      rfl

end Cutting

/-! ## Joining -/

section Joining

variable (order : Preorders P less) {sort? : List α → Option (List α)}
  (permutes : ∀ xs ys, sort? xs = some ys → ys ~ xs)
  (sorting : ∀ xs, (∀ x ∈ xs, P x) → ∃ ys, sort? xs = some ys ∧ Sorts P less xs ys)

include sorting in
theorem sorted_sorts {run : Run α} (sound : run.Sound P less) :
    ∃ ys, run.sorted? sort? = some ys ∧ Sorts P less run.items ys := by
  unfold Run.sorted?
  split
  · rename_i ordered
    exact ⟨_, rfl, sound.ascending ordered, .refl _⟩
  · exact sorting run.items sound.inside

include order permutes sorting

private theorem join_sound {left right : Run α} (sound : left.Sound P less)
    (otherSound : right.Sound P less) :
    ∃ run, left.join? less sort? right = some run ∧ run.Sound P less ∧
      SameOrder P less run.items (left.items ++ right.items) := by
  suffices ∃ run, left.join? less sort? right = some run ∧
      (run.ordered = true → Ascending less run.items) ∧
      SameOrder P less run.items (left.items ++ right.items) by
    obtain ⟨run, joined, ascending, same⟩ := this
    refine ⟨run, joined, ⟨fun x member => ?_, ascending⟩, same⟩
    exact List.forall_mem_append.mpr ⟨sound.inside, otherSound.inside⟩ x
      ((join_perm permutes joined).mem_iff.mp member)
  unfold Run.join?
  split
  · obtain ⟨front, first, firstSorts⟩ := sorted_sorts sorting sound
    obtain ⟨behind, second, secondSorts⟩ := sorted_sorts sorting otherSound
    have merged := merge_shorter_sorts order
      (fun x member => sound.inside x ((sorted_perm permutes first).mem_iff.mp member))
      (fun x member => otherSound.inside x ((sorted_perm permutes second).mem_iff.mp member))
      firstSorts.ascending secondSorts.ascending
    rw [first, second]
    exact ⟨_, rfl, fun _ => merged.ascending,
      merged.same.trans (firstSorts.same.append secondSorts.same)⟩
  · exact ⟨_, rfl, fun claimed => absurd claimed Bool.false_ne_true, .refl _⟩

private theorem collapse_sound (depth : Nat) {waiting : List (Run α × Nat)} {run : Run α}
    (waits : ∀ left ∈ waiting, left.1.Sound P less) (sound : run.Sound P less) :
    ∃ others joined, collapse? less sort? depth waiting run = some (others, joined) ∧
      (∀ left ∈ others, left.1.Sound P less) ∧ joined.Sound P less ∧
        SameOrder P less (waitingItems others ++ joined.items)
          (waitingItems waiting ++ run.items) := by
  induction waiting generalizing run with
  | nil => exact ⟨[], run, rfl, waits, sound, .refl _⟩
  | cons nearest waiting ih =>
    obtain ⟨left, meeting⟩ := nearest
    obtain ⟨near, further⟩ := List.forall_mem_cons.mp waits
    unfold collapse?
    split
    · obtain ⟨both, met, bothSound, same⟩ := join_sound order permutes sorting near sound
      obtain ⟨others, joined, collapsed, rest, joinedSound, kept⟩ := ih further bothSound
      refine ⟨others, joined, by rw [met]; exact collapsed, rest, joinedSound, kept.trans ?_⟩
      rw [show waitingItems ((left, meeting) :: waiting) ++ run.items =
        waitingItems waiting ++ (left.items ++ run.items) from List.append_assoc ..]
      exact same.append_left _
    · exact ⟨_, _, rfl, waits, sound, .refl _⟩

private theorem join_runs_sound (length : Nat) {waiting : List (Run α × Nat)} {run : Run α}
    (stop : Nat)
    {rest : List (Run α)} (waits : ∀ left ∈ waiting, left.1.Sound P less)
    (sound : run.Sound P less) (follow : ∀ next ∈ rest, next.Sound P less) :
    ∃ whole, joinRuns? less sort? length waiting run stop rest = some whole ∧
      whole.Sound P less ∧
        SameOrder P less whole.items (waitingItems waiting ++ run.items ++ itemsOf rest) := by
  induction rest generalizing waiting run stop with
  | nil =>
    obtain ⟨others, joined, collapsed, -, joinedSound, same⟩ :=
      collapse_sound order permutes sorting 0 waits sound
    rw [collapse_root collapsed] at same
    refine ⟨joined, ?_, joinedSound, by simpa [itemsOf, waitingItems] using same⟩
    rw [joinRuns?, collapsed]
    rfl
  | cons next rest ih =>
    obtain ⟨nearest, further⟩ := List.forall_mem_cons.mp follow
    let nextStop := stop + next.items.length
    let depth := meetingDepth length (stop - run.items.length) stop nextStop
    obtain ⟨others, joined, collapsed, left, met, same⟩ :=
      collapse_sound order permutes sorting depth waits sound
    have waiting : ∀ left ∈ (joined, depth) :: others, left.1.Sound P less :=
      List.forall_mem_cons.mpr ⟨met, left⟩
    obtain ⟨whole, went, final, kept⟩ := ih nextStop waiting nearest further
    refine ⟨whole, ?_, final, kept.trans ?_⟩
    · rw [joinRuns?]
      exact (congrArg (· >>= _) collapsed).trans went
    · simpa [waitingItems, itemsOf] using same.append_right (itemsOf (next :: rest))

private theorem sort_runs_sorts (eager : Bool) (inside : ∀ x ∈ xs, P x) :
    ∃ ys, sortRuns? less eager sort? xs = some ys ∧ Sorts P less xs ys := by
  obtain ⟨runs, cut, sounds, same⟩ :=
    cut_runs_sound order eager (goodLength xs.length) xs.length inside
  unfold sortRuns?
  rw [cut]
  cases runs with
  | nil => exact ⟨[], rfl, .nil, same⟩
  | cons run rest =>
    obtain ⟨first, further⟩ := List.forall_mem_cons.mp sounds
    obtain ⟨whole, joined, sound, kept⟩ := join_runs_sound order permutes sorting xs.length
      run.items.length (fun left member => (List.not_mem_nil member).elim) first further
    obtain ⟨ys, sorted, sorts⟩ := sorted_sorts sorting sound
    refine ⟨ys, ?_, sorts.behind (kept.trans same)⟩
    dsimp only [Option.bind_eq_bind, Option.bind_some]
    rw [joined]
    exact sorted

end Joining

/-! ## Splitting -/

/-- Elements that are alike fall to the same side of a test. -/
def Respects (P : α → Prop) (less : α → α → Bool) (test : α → Bool) : Prop :=
  ∀ a b, P a → P b → alike less a b = true → test a = test b

private theorem filter_both_same {test : α → Bool} (respects : Respects P less test)
    (inside : ∀ x ∈ xs, P x) : SameOrder P less (xs.filter test ++ xs.filter (!test ·)) xs := by
  intro a known
  have side : ∀ x ∈ xs, alike less a x = true → test x = test a := fun x member together =>
    (respects a x known (inside x member) together).symm
  have onSide (kept : Bool → Bool) : (xs.filter fun x => alike less a x && kept (test x)) =
      if kept (test a) then xs.filter (alike less a) else [] := by
    rw [List.filter_congr (q := fun x => alike less a x && kept (test a))]
    · cases kept (test a) <;> simp
    · intro x member
      cases together : alike less a x with
      | true => rw [side x member together]
      | false => rfl
  have passing := onSide id
  have failing := onSide not
  simp only [id_eq] at passing
  rw [List.filter_append, List.filter_filter, List.filter_filter, passing, failing]
  cases test a <;> simp

/-- An element that fails the test stays with the others. -/
theorem filter_around (test : α → Bool) (fails : test pivot = false) (before behind : List α) :
    (before ++ behind).filter test = (before ++ pivot :: behind).filter test ∧
      before.filter (!test ·) ++ pivot :: behind.filter (!test ·) =
        (before ++ pivot :: behind).filter (!test ·) := by
  simp [fails]

section Splitting

variable (order : Preorders P less)
include order

private theorem respects_less (known : P pivot) : Respects P less fun x => less x pivot := by
  intro a b first second together
  obtain ⟨notBelow, notAbove⟩ := alike_iff.mp together
  show less a pivot = less b pivot
  cases below : less a pivot with
  | true =>
    cases other : less b pivot with
    | true => rfl
    | false => exact below.symm.trans (order.trans known second first other notBelow)
  | false => exact (order.trans known first second below notAbove).symm

private theorem respects_not_greater (known : P pivot) :
    Respects P less fun x => !less pivot x := by
  intro a b first second together
  exact congrArg not (respects_less (flipped_preorders order) known a b first second
    ((Bool.and_comm _ _).trans together))

/-- The elements that are less than the pivot, sorted, stand before the others, sorted. -/
theorem split_lower_sorts (inside : ∀ x ∈ before ++ pivot :: behind, P x)
    (lowerPerm : lower ~ (before ++ behind).filter (less · pivot))
    (upperPerm : upper ~ before.filter (!less · pivot) ++ pivot :: behind.filter (!less · pivot))
    (lowerSorts : Sorts P less ((before ++ behind).filter (less · pivot)) lower)
    (upperSorts : Sorts P less
      (before.filter (!less · pivot) ++ pivot :: behind.filter (!less · pivot)) upper) :
    Sorts P less (before ++ pivot :: behind) (lower ++ upper) := by
  have known : P pivot := inside pivot (by simp)
  obtain ⟨lesser, others⟩ := filter_around (less · pivot) (order.irrefl pivot known) before behind
  rw [lesser] at lowerPerm lowerSorts
  rw [others] at upperPerm upperSorts
  refine ⟨List.pairwise_append.mpr ⟨lowerSorts.ascending, upperSorts.ascending, ?_⟩,
    (lowerSorts.same.append upperSorts.same).trans
      (filter_both_same (respects_less order known) inside)⟩
  intro low below high above
  obtain ⟨member, least⟩ := List.mem_filter.mp (lowerPerm.mem_iff.mp below)
  obtain ⟨among, notBelow⟩ := List.mem_filter.mp (upperPerm.mem_iff.mp above)
  exact order.asymm (inside low member) (inside high among) (order.less_behind (inside low member)
    known (inside high among) least ((Bool.not_eq_true' _).mp notBelow))

/-- When nothing is less than the pivot, its equals come first. -/
theorem split_equals_sorts (inside : ∀ x ∈ before ++ pivot :: behind, P x)
    (least : ∀ x ∈ before ++ pivot :: behind, less x pivot = false)
    (permutes : upper ~ (before ++ behind).filter (less pivot ·))
    (sorts : Sorts P less ((before ++ behind).filter (less pivot ·)) upper) :
    Sorts P less (before ++ pivot :: behind)
      ((before.filter (!less pivot ·) ++ pivot :: behind.filter (!less pivot ·)) ++ upper) := by
  have known : P pivot := inside pivot (by simp)
  obtain ⟨greater, equals⟩ := filter_around (less pivot ·) (order.irrefl pivot known) before behind
  rw [greater] at permutes sorts
  rw [equals]
  have parts := filter_both_same (respects_not_greater order known) inside
  simp only [Bool.not_not] at parts
  refine ⟨List.pairwise_append.mpr ⟨?_, sorts.ascending, ?_⟩,
    (sorts.same.append_left _).trans parts⟩
  · refine List.pairwise_of_forall_mem_list fun first here second there => ?_
    obtain ⟨among, notAbove⟩ := List.mem_filter.mp here
    obtain ⟨member, -⟩ := List.mem_filter.mp there
    exact order.trans (inside first among) known (inside second member)
      ((Bool.not_eq_true' _).mp notAbove) (least second member)
  · intro equal first high above
    obtain ⟨member, notAbove⟩ := List.mem_filter.mp first
    obtain ⟨among, below⟩ := List.mem_filter.mp (permutes.mem_iff.mp above)
    exact order.trans (inside equal member) known (inside high among)
      ((Bool.not_eq_true' _).mp notAbove) (order.asymm known (inside high among) below)

/-- Nothing is less than the pivot if no other element is, or if the bound is not. -/
theorem pivot_least {bound : Option α} (inside : ∀ x ∈ before ++ pivot :: behind, P x)
    (known : ∀ b ∈ bound, P b)
    (bounded : ∀ b ∈ bound, ∀ x ∈ before ++ pivot :: behind, less x b = false)
    (least : (((before ++ behind).filter (less · pivot)).isEmpty ||
      bound.any fun b => !less b pivot) = true) :
    ∀ x ∈ before ++ pivot :: behind, less x pivot = false := by
  have here : pivot ∈ before ++ pivot :: behind := by simp
  have itself := order.irrefl pivot (inside pivot here)
  intro x member
  rcases (Bool.or_eq_true ..).mp least with none | some
  · rw [(filter_around (less · pivot) itself before behind).1, List.isEmpty_iff,
      List.filter_eq_nil_iff] at none
    exact Bool.eq_false_iff.mpr (none x member)
  · cases bound with
    | none => cases some
    | some b =>
      exact order.trans (inside pivot here) (known b rfl) (inside x member)
        ((Bool.not_eq_true' _).mp some) (bounded b rfl x member)

private theorem split_sort_sorts (budget : Nat) (bound : Option α) (xs : List α)
    (inside : ∀ x ∈ xs, P x) (known : ∀ b ∈ bound, P b)
    (bounded : ∀ b ∈ bound, ∀ x ∈ xs, less x b = false) :
    ∃ ys, splitSort? less budget bound xs = some ys ∧ Sorts P less xs ys := by
  fun_induction splitSort? less budget bound xs with
  | case1 bound xs short => exact sort_small_sorts order inside
  | case2 bound xs long =>
    refine sort_runs_sorts order (fun items others same => ?_)
      (fun items among => ⟨_, rfl, insertion_sort_sorts order among⟩) true inside
    cases same
    exact insertion_sort_perm items
  | case3 budget bound xs short => exact sort_small_sorts order inside
  | case4 budget bound xs long position none =>
    exact ⟨_, rfl, insertion_sort_sorts order inside⟩
  | case5 budget bound xs long position before pivot behind cut lower least equals upper ih =>
    have whole : before ++ pivot :: behind = xs := by rw [← cut, List.take_append_drop]
    have among : ∀ x ∈ upper, P x := fun x member =>
      inside x (whole ▸ (divide_perm (less pivot ·) before pivot behind).mem_iff.mp
        (List.mem_append_left _ member))
    obtain ⟨greater, sorted, sorts⟩ := ih among (by simp) (by simp)
    rw [sorted]
    rw [← whole] at inside bounded ⊢
    exact ⟨_, rfl, split_equals_sorts order inside (pivot_least order inside known bounded least)
      (split_sort_perm sorted) sorts⟩
  | case6 budget bound xs long position before pivot behind cut lower split upper ihLower ihUpper =>
    have whole : before ++ pivot :: behind = xs := by rw [← cut, List.take_append_drop]
    have divided := divide_perm (less · pivot) before pivot behind
    have inLower : ∀ x ∈ lower, x ∈ xs := fun x member =>
      whole ▸ divided.mem_iff.mp (List.mem_append_left _ member)
    have inUpper : ∀ x ∈ upper, x ∈ xs := fun x member =>
      whole ▸ divided.mem_iff.mp (List.mem_append_right _ member)
    have here : P pivot := inside pivot (whole ▸ List.mem_append_right before List.mem_cons_self)
    obtain ⟨front, first, lowerSorts⟩ := ihLower (fun x member => inside x (inLower x member)) known
      fun b same x member => bounded b same x (inLower x member)
    obtain ⟨rest, second, upperSorts⟩ := ihUpper (fun x member => inside x (inUpper x member))
      (fun b same => Option.mem_some.mp same ▸ here) fun b same x member => by
        obtain rfl := Option.mem_some.mp same
        rw [show upper = xs.filter (!less · pivot) by
          rw [← whole]
          exact (filter_around (less · pivot) (order.irrefl pivot here) before behind).2] at member
        exact (Bool.not_eq_true' _).mp (List.mem_filter.mp member).2
    rw [first, second]
    rw [← whole] at inside ⊢
    exact ⟨_, rfl, split_lower_sorts order inside (split_sort_perm first) (split_sort_perm second)
      lowerSorts upperSorts⟩

end Splitting

/-! ## The whole sort -/

private theorem sort_positions_sorts {before : Nat → Nat → Bool} {length : Nat}
    (order : Preorders (· < length) before) :
    ∃ positions, sortPositions? before length = some positions ∧
      Sorts (· < length) before (List.range length) positions := by
  have inside : ∀ i ∈ List.range length, i < length := fun i member => List.mem_range.mp member
  unfold sortPositions?
  split
  · exact ⟨_, rfl, insertion_sort_sorts order inside⟩
  · refine sort_runs_sorts order (fun _ _ settled => split_sort_perm settled)
      (fun positions among => ?_) _ inside
    exact split_sort_sorts order _ none positions among (by simp) (by simp)

end Sorting

variable {α : Type} {less : α → α → Bool} {xs : List α}

/-- The element at the second position may stand behind the one at the first: it is not less, and if
it is not greater either, its position is the later one. -/
def MayFollow (less : α → α → Bool) (xs : List α) (i j : Nat) : Prop :=
  ∀ x y, xs[i]? = some x → xs[j]? = some y → less y x = false ∧ (less x y = false → i < j)

/-- All positions of a list, in the order in which a stable sort takes its elements. -/
structure Arranges (less : α → α → Bool) (xs : List α) (positions : List Nat) : Prop where
  all : positions.Perm (List.range xs.length)
  follow : positions.Pairwise (MayFollow less xs)

/-- A list is arranged in one way only. -/
theorem arranges_unique (arranges : Arranges less xs positions)
    (otherArranges : Arranges less xs others) : positions = others := by
  refine List.Perm.eq_of_pairwise (fun i j here there forth back => ?_) arranges.follow
    otherArranges.follow (arranges.all.trans otherArranges.all.symm)
  have first := List.mem_range.mp (arranges.all.mem_iff.mp here)
  have second := List.mem_range.mp (otherArranges.all.mem_iff.mp there)
  obtain ⟨above, earlier⟩ := forth _ _ (List.getElem?_eq_getElem first)
    (List.getElem?_eq_getElem second)
  obtain ⟨below, later⟩ := back _ _ (List.getElem?_eq_getElem second)
    (List.getElem?_eq_getElem first)
  exact absurd (earlier below) (Nat.lt_asymm (later above))

/-- Two positions compare as their elements do. -/
def beforeAt (less : α → α → Bool) (xs : List α) (i j : Nat) : Bool :=
  match xs[i]?, xs[j]? with
  | some x, some y => less x y
  | _, _ => false

private theorem before_at_eq (first : i < xs.length) (second : j < xs.length) :
    beforeAt less xs i j = less xs[i] xs[j] := by
  rw [beforeAt, List.getElem?_eq_getElem first, List.getElem?_eq_getElem second]

private theorem positions_preordered (order : Sorting.Preorders (· ∈ xs) less) :
    Sorting.Preorders (· < xs.length) (beforeAt less xs) where
  asymm first second := by
    rw [before_at_eq first second, before_at_eq second first]
    exact order.asymm (List.getElem_mem first) (List.getElem_mem second)
  trans first second third := by
    rw [before_at_eq second first, before_at_eq third second, before_at_eq third first]
    exact order.trans (List.getElem_mem first) (List.getElem_mem second) (List.getElem_mem third)

/-- For a total preorder on its elements a list is sorted as it is arranged. -/
theorem sort_stable_arranges (order : Sorting.Preorders (· ∈ xs) less) :
    ∃ positions, Arranges less xs positions ∧
      sortStable? less xs = some (positions.filterMap (xs[·]?)) := by
  obtain ⟨positions, sorted, sorts⟩ := Sorting.sort_positions_sorts (positions_preordered order)
  refine ⟨positions, ⟨Sorting.sort_positions_perm sorted, ?_⟩, ?_⟩
  · rw [List.pairwise_iff_forall_sublist]
    intro i j pair x y atFirst atSecond
    obtain ⟨first, rfl⟩ := List.getElem?_eq_some_iff.mp atFirst
    obtain ⟨second, rfl⟩ := List.getElem?_eq_some_iff.mp atSecond
    have behind := List.pairwise_iff_forall_sublist.mp sorts.ascending pair
    rw [before_at_eq second first] at behind
    refine ⟨behind, fun notBelow => ?_⟩
    have together : Sorting.alike (beforeAt less xs) i j = true := by
      rw [Sorting.alike_iff, before_at_eq first second, before_at_eq second first]
      exact ⟨notBelow, behind⟩
    have itself := (positions_preordered order).alike_self i first
    have kept := pair.filter (Sorting.alike (beforeAt less xs) i)
    rw [sorts.same i first, List.filter_cons_of_pos itself, List.filter_cons_of_pos together] at kept
    exact List.pairwise_iff_forall_sublist.mp (List.pairwise_lt_range.filter _) kept
  · unfold sortStable?
    simp only [List.getElem?_toArray, List.size_toArray]
    exact congrArg (Option.map _) sorted

end JsonQuery
