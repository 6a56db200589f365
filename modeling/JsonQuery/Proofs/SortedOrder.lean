import Mathlib.Data.List.Sort
import JsonQuery.Proofs.StableSorting

/-! Sorting by a total preorder is stable. The order is only asked for among the elements that are
sorted, since numbers may be ordered among themselves and yet not in company with others. Each step
exchanges elements that the order tells apart and never two that are alike, and at the end no element
is less than one before it; these two facts leave only one arrangement. And no merge gives up, because
for a total preorder the passes from both ends never take the same element. -/
namespace JsonQuery
namespace Sorting
open scoped List

variable {α : Type}

/-! ## What is kept and what is reached -/

/-- Among the elements in question the test is that of a total preorder: an element that is not less
than another may stand behind it. -/
structure Preorders (P : α → Prop) (less : α → α → Bool) : Prop where
  asymm : P a → P b → less a b = true → less b a = false
  trans : P a → P b → P c → less b a = false → less c b = false → less c a = false

/-- Neither of two elements is less than the other. -/
def alike (less : α → α → Bool) (a b : α) : Bool :=
  !less a b && !less b a

/-- No element is less than one before it. -/
def Ascending (less : α → α → Bool) (xs : List α) : Prop :=
  xs.Pairwise fun a b => less b a = false

/-- Elements that are alike stand in the same order in both lists. -/
def SameOrder (P : α → Prop) (less : α → α → Bool) (xs ys : List α) : Prop :=
  ∀ a, P a → xs.filter (alike less a) = ys.filter (alike less a)

variable {P : α → Prop} {less : α → α → Bool}

theorem alike_iff : alike less a b = true ↔ less a b = false ∧ less b a = false := by
  simp [alike]

namespace Preorders

variable (order : Preorders P less)
include order

theorem irrefl (a : α) (inside : P a) : less a a = false := by
  cases itself : less a a with
  | false => rfl
  | true => exact itself.symm.trans (order.asymm inside inside itself)

theorem alike_self (a : α) (inside : P a) : alike less a a = true :=
  alike_iff.mpr ⟨order.irrefl a inside, order.irrefl a inside⟩

private theorem alike_trans (first : P a) (second : P b) (third : P c)
    (left : alike less a b = true)
    (right : alike less b c = true) : alike less a c = true := by
  obtain ⟨ab, ba⟩ := alike_iff.mp left
  obtain ⟨bc, cb⟩ := alike_iff.mp right
  exact alike_iff.mpr ⟨order.trans third second first bc ab, order.trans first second third ba cb⟩

/-- What is less than an element is less than everything that may stand behind it. -/
theorem less_behind (first : P a) (second : P b) (third : P c) (below : less a b = true)
    (behind : less c b = false) : less a c = true := by
  cases apart : less a c with
  | true => rfl
  | false => exact (order.trans second third first behind apart).symm.trans below

end Preorders

/-! ## The order of elements that are alike -/

namespace SameOrder

theorem refl (xs : List α) : SameOrder P less xs xs :=
  fun _ _ => rfl

theorem symm (same : SameOrder P less xs ys) : SameOrder P less ys xs :=
  fun a inside => (same a inside).symm

theorem trans (first : SameOrder P less xs ys) (second : SameOrder P less ys zs) :
    SameOrder P less xs zs :=
  fun a inside => (first a inside).trans (second a inside)

theorem append (first : SameOrder P less xs ys) (second : SameOrder P less us vs) :
    SameOrder P less (xs ++ us) (ys ++ vs) := by
  intro a inside
  rw [List.filter_append, List.filter_append, first a inside, second a inside]

theorem append_left (zs : List α) (same : SameOrder P less xs ys) :
    SameOrder P less (zs ++ xs) (zs ++ ys) :=
  append (refl zs) same

theorem append_right (zs : List α) (same : SameOrder P less xs ys) :
    SameOrder P less (xs ++ zs) (ys ++ zs) :=
  append same (refl zs)

theorem cons (x : α) (same : SameOrder P less xs ys) : SameOrder P less (x :: xs) (x :: ys) :=
  append_left [x] same

theorem reverse (same : SameOrder P less xs ys) : SameOrder P less xs.reverse ys.reverse := by
  intro a inside
  rw [List.filter_reverse, List.filter_reverse, same a inside]

/-- It does not matter which of two elements is called the lesser one. -/
theorem flipped (same : SameOrder P (fun a b => less b a) xs ys) : SameOrder P less xs ys := by
  intro a inside
  have flip : alike (fun a b => less b a) a = alike less a :=
    funext fun b => Bool.and_comm _ _
  simpa only [flip] using same a inside

/-- An element may pass others that it is not alike. -/
theorem pass (order : Preorders P less) (inside : P x) (others : ∀ y ∈ ys, P y)
    (apart : ∀ y ∈ ys, alike less x y = false) : SameOrder P less (x :: ys) (ys ++ [x]) := by
  intro a known
  rw [List.filter_append]
  cases like : alike less a x with
  | false => rw [List.filter_cons_of_neg (by simp [like])]; simp [like]
  | true =>
    have reversed : alike less x a = true := by
      rw [alike_iff] at like ⊢
      exact like.symm
    have none : ys.filter (alike less a) = [] := by
      rw [List.filter_eq_nil_iff]
      intro y member together
      have unlike := apart y member
      rw [order.alike_trans inside known (others y member) reversed together] at unlike
      cases unlike
    rw [List.filter_cons_of_pos like, none]
    simp [like]

end SameOrder

private theorem apart_of_less (below : less a b = true) : alike less a b = false := by
  simp [alike, below]

theorem apart_of_greater (above : less b a = true) : alike less a b = false := by
  simp [alike, above]

/-- The second list is the first one, stably sorted. -/
structure Sorts (P : α → Prop) (less : α → α → Bool) (xs ys : List α) : Prop where
  ascending : Ascending less ys
  same : SameOrder P less ys xs

theorem Sorts.behind (sorts : Sorts P less ys zs) (same : SameOrder P less ys xs) :
    Sorts P less xs zs :=
  ⟨sorts.ascending, sorts.same.trans same⟩

/-- Two ascending lists in which alike elements stand in the same order are the same list. -/
theorem ascending_unique (order : Preorders P less) (inside : ∀ x ∈ xs, P x)
    (otherInside : ∀ y ∈ ys, P y) (ascending : Ascending less xs)
    (otherAscending : Ascending less ys) (same : SameOrder P less xs ys) : xs = ys := by
  have first_before {a x : α} {rest : List α} (up : Ascending less (x :: rest))
      (known : P x) (member : a ∈ x :: rest) : less a x = false := by
    rcases List.mem_cons.mp member with rfl | behind
    · exact order.irrefl a known
    · exact List.rel_of_pairwise_cons up behind
  have occurs {x : α} {rest others : List α} (known : P x)
      (kept : SameOrder P less (x :: rest) others) : x ∈ others := by
    have itself : x ∈ (x :: rest).filter (alike less x) :=
      List.mem_filter.mpr ⟨List.mem_cons_self, order.alike_self x known⟩
    rw [kept x known] at itself
    exact (List.mem_filter.mp itself).1
  induction xs generalizing ys with
  | nil =>
    cases ys with
    | nil => rfl
    | cons y ys => cases occurs (otherInside y List.mem_cons_self) same.symm
  | cons x xs ih =>
    have known := inside x List.mem_cons_self
    cases ys with
    | nil => cases occurs known same
    | cons y ys =>
      have otherKnown := otherInside y List.mem_cons_self
      have together : alike less x y = true := by
        have back := first_before ascending known (occurs otherKnown same.symm)
        have forth := first_before otherAscending otherKnown (occurs known same)
        exact alike_iff.mpr ⟨forth, back⟩
      have heads := same x known
      rw [List.filter_cons_of_pos (order.alike_self x known), List.filter_cons_of_pos together]
        at heads
      obtain ⟨rfl, -⟩ := List.cons.inj heads
      have tails : SameOrder P less xs ys := by
        intro a there
        have rests := same a there
        rw [List.filter_cons, List.filter_cons] at rests
        split at rests
        · exact (List.cons.inj rests).2
        · exact rests
      rw [ih (fun z member => inside z (List.mem_cons_of_mem x member))
        (fun z member => otherInside z (List.mem_cons_of_mem x member)) ascending.of_cons
        otherAscending.of_cons tails]

/-! ## Inserting -/

section Inserting

variable (order : Preorders P less)
include order

private theorem insert_descending_sorts (inside : P x) (others : ∀ y ∈ ys, P y)
    (descending : ys.Pairwise fun a b => less a b = false) :
    ((insertDescending less x ys).Pairwise fun a b => less a b = false) ∧
      SameOrder P less (insertDescending less x ys) (x :: ys) := by
  induction ys with
  | nil => exact ⟨List.pairwise_singleton .., .refl _⟩
  | cons y rest ih =>
    obtain ⟨greatest, below⟩ := List.pairwise_cons.mp descending
    have first := others y List.mem_cons_self
    have behind : ∀ z ∈ rest, P z := fun z member => others z (List.mem_cons_of_mem y member)
    unfold insertDescending
    cases passes : less x y with
    | true =>
      obtain ⟨down, same⟩ := ih behind below
      refine ⟨List.pairwise_cons.mpr ⟨fun z member => ?_, down⟩, ?_⟩
      · rcases List.mem_cons.mp ((insert_descending_perm x rest).mem_iff.mp member) with rfl | among
        · exact order.asymm inside first passes
        · exact greatest z among
      · have exchanged : SameOrder P less ([x] ++ [y]) ([y] ++ [x]) :=
          .pass order inside (by simpa using first) (by simpa using apart_of_less passes)
        exact (same.cons y).trans (exchanged.append_right rest).symm
    | false =>
      refine ⟨List.pairwise_cons.mpr ⟨fun z member => ?_, descending⟩, .refl _⟩
      rcases List.mem_cons.mp member with rfl | among
      · exact passes
      · exact order.trans (behind z among) first inside (greatest z among) passes

/-- Elements that are inserted one by one come to stand before the alike ones inserted earlier. -/
theorem insert_all_descending (inside : ∀ x ∈ xs ++ sorted, P x)
    (descending : sorted.Pairwise fun a b => less a b = false) :
    let result := xs.foldl (fun sorted x => insertDescending less x sorted) sorted
    (result.Pairwise fun a b => less a b = false) ∧
      SameOrder P less result (xs.reverse ++ sorted) := by
  induction xs generalizing sorted with
  | nil => exact ⟨descending, .refl _⟩
  | cons x rest ih =>
    have known := inside x List.mem_cons_self
    have among : ∀ y ∈ sorted, P y := fun y member =>
      inside y (List.mem_append_right (x :: rest) member)
    obtain ⟨next, same⟩ := insert_descending_sorts order known among descending
    have insideNext : ∀ y ∈ rest ++ insertDescending less x sorted, P y := by
      intro y member
      rcases List.mem_append.mp member with later | inserted
      · exact inside y (List.mem_append_left sorted (List.mem_cons_of_mem x later))
      · rcases List.mem_cons.mp ((insert_descending_perm x sorted).mem_iff.mp inserted) with
          rfl | before
        · exact known
        · exact among y before
    obtain ⟨final, kept⟩ := ih insideNext next
    refine ⟨final, ?_⟩
    rw [List.reverse_cons, List.append_assoc]
    exact kept.trans (same.append_left rest.reverse)

private theorem insert_each_sorts (ascending : Ascending less sorted)
    (inside : ∀ x ∈ sorted ++ xs, P x) :
    Sorts P less (sorted ++ xs) (insertEach less sorted xs) := by
  obtain ⟨final, kept⟩ := insert_all_descending order (by simpa [or_comm] using inside)
    (List.pairwise_reverse.mpr ascending)
  refine ⟨List.pairwise_reverse.mpr final, ?_⟩
  have turned := kept.reverse
  rwa [List.reverse_append, List.reverse_reverse, List.reverse_reverse] at turned

theorem insertion_sort_sorts (inside : ∀ x ∈ xs, P x) : Sorts P less xs (insertionSort less xs) :=
  insert_each_sorts order .nil inside

end Inserting

/-! ## Merging -/

section Merging

variable (order : Preorders P less)
include order

private theorem merge_up_sorts (inside : ∀ x ∈ left, P x) (otherInside : ∀ y ∈ right, P y)
    (ascending : Ascending less left) (otherAscending : Ascending less right) :
    Sorts P less (left ++ right) (mergeUp less left right) := by
  induction left generalizing right with
  | nil =>
    rw [mergeUp, List.nil_merge]
    exact ⟨otherAscending, .refl _⟩
  | cons x left ihLeft =>
    obtain ⟨least, up⟩ := List.pairwise_cons.mp ascending
    have first := inside x List.mem_cons_self
    have rest : ∀ z ∈ left, P z := fun z member => inside z (List.mem_cons_of_mem x member)
    induction right with
    | nil =>
      rw [mergeUp, List.merge_right, List.append_nil]
      exact ⟨ascending, .refl _⟩
    | cons y right ihRight =>
      obtain ⟨otherLeast, otherUp⟩ := List.pairwise_cons.mp otherAscending
      have otherFirst := otherInside y List.mem_cons_self
      have otherRest : ∀ z ∈ right, P z := fun z member =>
        otherInside z (List.mem_cons_of_mem y member)
      unfold mergeUp
      rw [List.cons_merge_cons]
      cases behind : less y x with
      | false =>
        rw [if_pos Bool.not_false]
        obtain ⟨merged, same⟩ := ihLeft rest otherInside up otherAscending
        refine ⟨List.pairwise_cons.mpr ⟨fun z member => ?_, merged⟩, same.cons x⟩
        rcases List.mem_append.mp ((merge_up_perm left (y :: right)).mem_iff.mp member) with
          here | there
        · exact least z here
        · rcases List.mem_cons.mp there with rfl | further
          · exact behind
          · exact order.trans first otherFirst (otherRest z further) behind (otherLeast z further)
      | true =>
        rw [if_neg (by simp)]
        obtain ⟨merged, same⟩ := ihRight otherRest otherUp
        have before : ∀ z ∈ x :: left, less y z = true := by
          intro z member
          rcases List.mem_cons.mp member with rfl | among
          · exact behind
          · exact order.less_behind otherFirst first (rest z among) behind (least z among)
        refine ⟨List.pairwise_cons.mpr ⟨fun z member => ?_, merged⟩, ?_⟩
        · rcases List.mem_append.mp ((merge_up_perm (x :: left) right).mem_iff.mp member) with
            here | there
          · exact order.asymm otherFirst (inside z here) (before z here)
          · exact otherLeast z there
        · have passed : SameOrder P less (y :: (x :: left)) ((x :: left) ++ [y]) :=
            .pass order otherFirst inside fun z member => apart_of_less (before z member)
          have moved := passed.append_right right
          rw [List.append_assoc] at moved
          exact (same.cons y).trans moved

theorem flipped_preorders : Preorders P fun a b => less b a where
  asymm first second below := order.asymm second first below
  trans first second third forth back := order.trans third second first back forth

private theorem merge_down_sorts (inside : ∀ x ∈ left, P x) (otherInside : ∀ y ∈ right, P y)
    (ascending : Ascending less left) (otherAscending : Ascending less right) :
    Sorts P less (left ++ right) (mergeDown less left right) := by
  have turned := merge_up_sorts (flipped_preorders order)
    (fun y member => otherInside y (List.mem_reverse.mp member))
    (fun x member => inside x (List.mem_reverse.mp member))
    (List.pairwise_reverse.mpr otherAscending) (List.pairwise_reverse.mpr ascending)
  refine ⟨List.pairwise_reverse.mpr turned.ascending, ?_⟩
  have back := turned.same.flipped.reverse
  rwa [List.reverse_append, List.reverse_reverse, List.reverse_reverse] at back

theorem merge_shorter_sorts (inside : ∀ x ∈ left, P x) (otherInside : ∀ y ∈ right, P y)
    (ascending : Ascending less left) (otherAscending : Ascending less right) :
    Sorts P less (left ++ right) (mergeShorter less left right) := by
  unfold mergeShorter
  split
  · exact merge_up_sorts order inside otherInside ascending otherAscending
  · exact merge_down_sorts order inside otherInside ascending otherAscending

/-- Both directions come to the same list. -/
theorem merge_up_down (inside : ∀ x ∈ left, P x) (otherInside : ∀ y ∈ right, P y)
    (ascending : Ascending less left) (otherAscending : Ascending less right) :
    mergeUp less left right = mergeDown less left right := by
  have up := merge_up_sorts order inside otherInside ascending otherAscending
  have down := merge_down_sorts order inside otherInside ascending otherAscending
  have all : ∀ x ∈ left ++ right, P x := List.forall_mem_append.mpr ⟨inside, otherInside⟩
  refine ascending_unique order (fun x member => ?_) (fun x member => ?_) up.ascending
    down.ascending (up.same.trans down.same.symm)
  · exact all x ((merge_up_perm left right).mem_iff.mp member)
  · exact all x ((merge_down_perm left right).mem_iff.mp member)

omit order in
theorem perm_short {xs ys : List α} (same : xs ~ ys) (short : ys.length ≤ 1) : xs = ys := by
  match ys, short with
  | [], _ => exact same.eq_nil
  | [y], _ => exact List.perm_singleton.mp same

omit order in
/-- The share of the first list depends on the elements only through the comparisons. -/
theorem share_map {β : Type} (f : β → α) (first : α → α → Bool) (n : Nat) (xs ys : List β) :
    shareOfFirst first n (xs.map f) (ys.map f) =
      shareOfFirst (fun a b => first (f a) (f b)) n xs ys := by
  fun_induction shareOfFirst (fun a b => first (f a) (f b)) n xs ys <;> simp_all [shareOfFirst]

omit order in
/-- A front and an end that have no element in common do not overlap. -/
theorem parts_apart {xs : List α} (inside : low ≤ xs.length)
    (apart : ∀ x ∈ xs.take low, x ∉ xs.drop high) : low ≤ high := by
  by_contra beyond
  have within : high < xs.length := by omega
  have front : xs[high] ∈ xs.take low := List.mem_take_iff_getElem.mpr ⟨high, by omega, rfl⟩
  have back : xs[high] ∈ xs.drop high := by
    rw [List.drop_eq_getElem_cons within]
    exact List.mem_cons_self
  exact apart _ front back

/-- How far the pass upwards gets in both lists, and how far the pass downwards, when each takes as
many elements as the left list has: they do not overlap. -/
def PassesApart (less : α → α → Bool) (left right : List α) : Prop :=
  let low := shareOfFirst (fun x y => !less y x) left.length left right
  let high := shareOfFirst (fun y x => !less y x) left.length right.reverse left.reverse
  low ≤ high ∧ left.length - low ≤ right.length - high

/-- Both passes take their elements from one merged list, one from its front and one from its end, so
that distinct elements are taken once. -/
theorem passes_apart_distinct (inside : ∀ x ∈ left, P x) (otherInside : ∀ y ∈ right, P y)
    (ascending : Ascending less left) (otherAscending : Ascending less right)
    (notLonger : left.length ≤ right.length) (distinct : (left ++ right).Nodup) :
    PassesApart less left right := by
  have same := merge_up_down order inside otherInside ascending otherAscending
  have front := take_merge_perm (fun x y => !less y x) left.length left right
  have back := drop_merge_down_perm less left right
  have few := share_le (fun x y => !less y x) left.length left right
  rw [← same] at back
  have once : (mergeUp less left right).Nodup := (merge_up_perm left right).nodup_iff.mpr distinct
  have apart : ∀ x ∈ (mergeUp less left right).take left.length,
      x ∉ (mergeUp less left right).drop right.length := fun x taken later =>
    List.disjoint_take_drop once notLonger taken later
  constructor
  · refine parts_apart few fun x early late => apart x ?_ ?_
    · exact front.mem_iff.mpr (List.mem_append_left _ early)
    · exact back.mem_iff.mpr (List.mem_append_right _ late)
  · refine parts_apart ((Nat.sub_le _ _).trans notLonger) fun x early late => apart x ?_ ?_
    · exact front.mem_iff.mpr (List.mem_append_right _ early)
    · exact back.mem_iff.mpr (List.mem_append_left _ late)

/-- Elements that occur several times are told apart by their places, which no comparison sees. -/
theorem passes_apart (inside : ∀ x ∈ left, P x) (otherInside : ∀ y ∈ right, P y)
    (ascending : Ascending less left) (otherAscending : Ascending less right)
    (notLonger : left.length ≤ right.length) : PassesApart less left right := by
  have placed : Preorders (fun p : α × Nat => P p.1) fun a b => less a.1 b.1 :=
    ⟨fun first second => order.asymm first second, fun first second third =>
      order.trans first second third⟩
  let front := left.zipIdx
  let back := right.zipIdx left.length
  have leftItems : front.map Prod.fst = left := List.zipIdx_map_fst 0 left
  have rightItems : back.map Prod.fst = right := List.zipIdx_map_fst left.length right
  have distinct : (front ++ back).Nodup := by
    refine .of_map Prod.snd ?_
    rw [List.map_append, List.zipIdx_map_snd, List.zipIdx_map_snd, List.nodup_append]
    refine ⟨List.nodup_range', List.nodup_range', fun i early j late => ?_⟩
    rw [List.mem_range'_1] at early late
    omega
  have among {items : List (α × Nat)} {xs : List α} (fsts : items.map Prod.fst = xs)
      (inside : ∀ x ∈ xs, P x) : ∀ p ∈ items, P p.1 := fun p member =>
    inside p.1 (fsts ▸ List.mem_map_of_mem member)
  have ordered {items : List (α × Nat)} {xs : List α} (fsts : items.map Prod.fst = xs)
      (ascending : Ascending less xs) : Ascending (fun a b => less a.1 b.1) items := by
    subst fsts
    exact List.pairwise_map.mp ascending
  have apart := passes_apart_distinct placed (among leftItems inside) (among rightItems otherInside)
    (ordered leftItems ascending) (ordered rightItems otherAscending)
    (by simpa [front, back] using notLonger) distinct
  have up := share_map Prod.fst (fun x y => !less y x) left.length front back
  have down := share_map Prod.fst (fun y x => !less y x) left.length back.reverse front.reverse
  rw [leftItems, rightItems] at up
  rw [List.map_reverse, List.map_reverse, leftItems, rightItems] at down
  have length : front.length = left.length := List.length_zipIdx
  have otherLength : back.length = right.length := List.length_zipIdx
  unfold PassesApart at apart ⊢
  rwa [length, otherLength, ← up, ← down] at apart

/-- What both passes leave between them is at most one element, and so it is the one that is missing
there. -/
theorem merge_inward_sorts (inside : ∀ x ∈ left, P x) (otherInside : ∀ y ∈ right, P y)
    (ascending : Ascending less left) (otherAscending : Ascending less right)
    (notLonger : left.length ≤ right.length) (almost : right.length ≤ left.length + 1) :
    ∃ ys, mergeInward? less left right = some ys ∧ Sorts P less (left ++ right) ys := by
  have merged := merge_up_sorts order inside otherInside ascending otherAscending
  have upPermuted : mergeUp less left right ~ left ++ right := merge_up_perm left right
  have same := merge_up_down order inside otherInside ascending otherAscending
  refine ⟨mergeUp less left right, ?_, merged⟩
  obtain ⟨fewLeft, fewRight⟩ :=
    passes_apart order inside otherInside ascending otherAscending notLonger
  obtain ⟨ys, found⟩ : ∃ ys, mergeInward? less left right = some ys :=
    ⟨_, if_pos ⟨fewLeft, fewRight⟩⟩
  have permuted : ys ~ left ++ right := merge_inward_perm found
  rw [found]
  congr 1
  unfold mergeInward? at found
  dsimp only at found
  rw [if_pos ⟨fewLeft, fewRight⟩, Option.some.injEq] at found
  subst found
  rw [← same] at permuted ⊢
  generalize (left.take _).drop _ = fromLeft at permuted ⊢
  generalize (right.take _).drop _ = fromRight at permuted ⊢
  have parts := three_parts (mergeUp less left right) notLonger
  have missing : fromLeft ++ fromRight =
      ((mergeUp less left right).take right.length).drop left.length := by
    refine perm_short ?_ ?_
    · have whole := permuted.trans (upPermuted.symm.trans (.of_eq parts.symm))
      rw [List.append_assoc, List.perm_append_left_iff, ← List.append_assoc,
        List.perm_append_right_iff] at whole
      exact whole
    · rw [List.length_drop, List.length_take]
      omega
  rw [← List.append_assoc fromLeft, missing, ← List.append_assoc, parts]

end Merging

/-! ## Short lists -/

section Short

variable (order : Preorders P less)
include order

/-- Two elements in ascending order. -/
def sortTwo (less : α → α → Bool) (p q : α) : List α :=
  if less q p then [q, p] else [p, q]

private theorem sort_two_sorts (first : P p) (second : P q) :
    Sorts P less [p, q] (sortTwo less p q) := by
  unfold sortTwo
  cases turned : less q p with
  | true =>
    refine ⟨List.pairwise_pair.mpr (order.asymm second first turned), ?_⟩
    exact .pass order second (by simpa using first) (by simpa using apart_of_less turned)
  | false => exact ⟨List.pairwise_pair.mpr turned, .refl _⟩

/-- The five comparisons merge two sorted pairs. -/
theorem sort_four_merges (insides : ∀ x ∈ [p, q, r, s], P x) :
    sortFour less p q r s = mergeUp less (sortTwo less p q) (sortTwo less r s) := by
  have merges {a b c d : α} (known : P a ∧ P b ∧ P c ∧ P d) (left : less b a = false)
      (right : less d c = false) :
      (let low := less c a
      let high := less d b
      let least := if low then c else a
      let greatest := if high then b else d
      let x := if low then a else if high then c else b
      let y := if high then d else if low then b else c
      if less y x then [least, y, x, greatest] else [least, x, y, greatest]) =
        mergeUp less [a, b] [c, d] := by
    obtain ⟨pa, pb, pc, pd⟩ := known
    unfold mergeUp
    cases low : less c a <;> cases high : less d b
    · cases middle : less c b <;> simp [low, high, middle]
    · have middle : less c b = true := by
        cases apart : less c b with
        | true => rfl
        | false => exact (order.trans pb pc pd apart right).symm.trans high
      simp [low, high, middle, right]
    · have middle : less d a = false := order.trans pa pb pd left high
      simp [low, high, middle, left]
    · cases middle : less d a <;> simp [low, high, middle]
  obtain ⟨pp, pq, pr, ps, -⟩ := by simpa only [List.forall_mem_cons] using insides
  unfold sortFour sortTwo
  cases first : less q p <;> cases second : less s r
  · exact merges ⟨pp, pq, pr, ps⟩ first second
  · exact merges ⟨pp, pq, ps, pr⟩ first (order.asymm ps pr second)
  · exact merges ⟨pq, pp, pr, ps⟩ (order.asymm pq pp first) second
  · exact merges ⟨pq, pp, ps, pr⟩ (order.asymm pq pp first) (order.asymm ps pr second)

private theorem sort_four_sorts (inside : ∀ x ∈ [p, q, r, s], P x) :
    Sorts P less [p, q, r, s] (sortFour less p q r s) := by
  obtain ⟨pp, pq, pr, ps, -⟩ := by simpa only [List.forall_mem_cons] using inside
  have left := sort_two_sorts order pp pq
  have right := sort_two_sorts order pr ps
  have pair {a b : α} (first : P a) (second : P b) : ∀ x ∈ sortTwo less a b, P x := by
    unfold sortTwo
    split <;> simp [first, second]
  rw [sort_four_merges order inside]
  exact (merge_up_sorts order (pair pp pq) (pair pr ps) left.ascending right.ascending).behind
    (left.same.append right.same)

private theorem sort_half_sorts (inside : ∀ x ∈ xs, P x) : Sorts P less xs (sortHalf less xs) := by
  unfold sortHalf
  split
  · rename_i p q r s rest
    have front := sort_four_sorts order fun x member =>
      inside x (List.mem_append_left rest member)
    refine (insert_each_sorts order front.ascending fun x member => ?_).behind
      (front.same.append_right rest)
    exact inside x (((sort_four_perm p q r s).append_right rest).mem_iff.mp member)
  · exact insertion_sort_sorts order inside

theorem sort_small_sorts (inside : ∀ x ∈ xs, P x) :
    ∃ ys, sortSmall? less xs = some ys ∧ Sorts P less xs ys := by
  have halves : xs.take (xs.length / 2) ++ xs.drop (xs.length / 2) = xs :=
    List.take_append_drop _ _
  have leftIn : ∀ x ∈ xs.take (xs.length / 2), P x := fun x member =>
    inside x (List.mem_of_mem_take member)
  have rightIn : ∀ x ∈ xs.drop (xs.length / 2), P x := fun x member =>
    inside x (List.mem_of_mem_drop member)
  -- Each half is sorted in the one way or in the other.
  have joined {left right : List α} (leftPerm : left ~ xs.take (xs.length / 2))
      (rightPerm : right ~ xs.drop (xs.length / 2))
      (leftSorts : Sorts P less (xs.take (xs.length / 2)) left)
      (rightSorts : Sorts P less (xs.drop (xs.length / 2)) right) :
      ∃ ys, mergeInward? less left right = some ys ∧ Sorts P less xs ys := by
    have leftLength := leftPerm.length_eq
    have rightLength := rightPerm.length_eq
    rw [List.length_take] at leftLength
    rw [List.length_drop] at rightLength
    have whole := leftSorts.same.append rightSorts.same
    rw [halves] at whole
    obtain ⟨ys, merged, sorts⟩ := merge_inward_sorts order
      (fun x member => leftIn x (leftPerm.mem_iff.mp member))
      (fun x member => rightIn x (rightPerm.mem_iff.mp member)) leftSorts.ascending
      rightSorts.ascending (by omega) (by omega)
    exact ⟨ys, merged, sorts.behind whole⟩
  unfold sortSmall?
  dsimp only
  split
  · exact joined (insertion_sort_perm _) (insertion_sort_perm _)
      (insertion_sort_sorts order leftIn) (insertion_sort_sorts order rightIn)
  · exact joined (sort_half_perm _) (sort_half_perm _)
      (sort_half_sorts order leftIn) (sort_half_sorts order rightIn)

end Short

end Sorting
end JsonQuery
