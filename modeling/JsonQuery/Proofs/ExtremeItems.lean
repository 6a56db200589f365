import JsonQuery.Proofs.KeyedSorting

/-! The extremes of an array and the ends of the sorted array. A pass over the items keeps the best one
so far. For a total preorder this is the item that wins against all before it and is beaten by none
behind it, and there is only one such item: the first or the last of the sorted items. The pass and the
sort thus choose alike among equals. For another order the pass has a result where the sort gives up. -/
namespace JsonQuery
namespace Sorting

variable {α : Type} {P : α → Prop} {less wins : α → α → Bool} {xs : List α}

/-! ## The choice of one pass -/

/-- Among the elements in question, what wins against an element wins against all that this one wins
against, and against all that do not win against it. -/
structure Decides (P : α → Prop) (wins : α → α → Bool) : Prop where
  trans : P a → P b → P c → wins a b = true → wins b c = true → wins a c = true
  beyond : P a → P b → P c → wins a b = true → wins c b = false → wins a c = true

/-- The element wins against all before it, and none behind it wins against it. -/
structure Best (wins : α → α → Bool) (before : List α) (x : α) (behind : List α) : Prop where
  earlier : ∀ b ∈ before, wins x b = true
  later : ∀ b ∈ behind, wins b x = false

/-- The element at the position is the best. -/
def Chosen (wins : α → α → Bool) (xs : List α) (i : Nat) (x : α) : Prop :=
  xs[i]? = some x ∧ ∀ j y, xs[j]? = some y → (j < i → wins x y = true) ∧ (i < j → wins y x = false)

private theorem best_alone (wins : α → α → Bool) (x : α) : Best wins [] x [] :=
  ⟨List.forall_mem_nil _, List.forall_mem_nil _⟩

private theorem chosen_of_best (best : Best wins before x behind) :
    Chosen wins (before ++ x :: behind) before.length x := by
  refine ⟨by simp, fun j y there => ⟨fun early => ?_, fun late => ?_⟩⟩
  · rw [List.getElem?_append_left early] at there
    exact best.earlier y (List.mem_of_getElem? there)
  · obtain ⟨k, rfl⟩ := Nat.exists_eq_add_of_lt late
    rw [List.getElem?_append_right (by omega), Nat.add_assoc, Nat.add_sub_cancel_left,
      List.getElem?_cons_succ] at there
    exact best.later y (List.mem_of_getElem? there)

private theorem chosen_unique (chosen : Chosen wins xs i x) (other : Chosen wins xs j y) :
    x = y := by
  obtain ⟨there, others⟩ := chosen
  obtain ⟨otherThere, otherOthers⟩ := other
  rcases Nat.lt_trichotomy i j with early | rfl | late
  · have loses := (others j y otherThere).2 early
    cases loses.symm.trans ((otherOthers i x there).1 early)
  · exact Option.some.inj (there.symm.trans otherThere)
  · have loses := (otherOthers i x there).2 late
    cases loses.symm.trans ((others j y otherThere).1 late)

section Passing

variable (decides : Decides P wins)
include decides

/-- What wins against the best element so far wins against all so far. -/
theorem best_beaten (inside : ∀ z ∈ before ++ x :: behind, P z) (known : P y)
    (best : Best wins before x behind) (better : wins y x = true) :
    Best wins (before ++ x :: behind) y [] := by
  have here : P x := inside x (by simp)
  refine ⟨fun b member => ?_, nofun⟩
  rcases List.mem_append.mp member with early | rest
  · exact decides.trans known here (inside b member) better (best.earlier b early)
  · rcases List.mem_cons.mp rest with rfl | late
    · exact better
    · exact decides.beyond known here (inside b member) better (best.later b late)

/-- A pass that keeps the better one of two elements ends with the best of all. -/
theorem pass_chosen (inside : ∀ z ∈ before ++ x :: behind ++ rest, P z)
    (best : Best wins before x behind) :
    ∃ i, Chosen wins (before ++ x :: behind ++ rest) i
      (rest.foldl (fun best y => if wins y best then y else best) x) := by
  induction rest generalizing before x behind with
  | nil =>
    rw [List.append_nil]
    exact ⟨before.length, chosen_of_best best⟩
  | cons y rest ih =>
    rw [List.foldl_cons]
    -- The next element takes the place of the best one so far, or joins those behind it.
    cases better : wins y x with
    | true =>
      have known : P y := inside y (by simp)
      have front : ∀ z ∈ before ++ x :: behind, P z := fun z member =>
        inside z (List.mem_append_left _ member)
      have whole : before ++ x :: behind ++ y :: rest = before ++ x :: behind ++ [y] ++ rest := by
        simp
      rw [whole] at inside ⊢
      exact ih inside (best_beaten decides front known best better)
    | false =>
      have whole : before ++ x :: behind ++ y :: rest = before ++ x :: (behind ++ [y]) ++ rest := by
        simp
      rw [whole] at inside ⊢
      exact ih inside ⟨best.earlier, List.forall_mem_append.mpr
        ⟨best.later, List.forall_mem_singleton.mpr better⟩⟩

end Passing

private theorem first_least_some (less : α → α → Bool) (nonempty : xs ≠ []) :
    ∃ x, firstLeast? less xs = some x := by
  cases xs with
  | nil => exact absurd rfl nonempty
  | cons => exact ⟨_, rfl⟩

private theorem last_greatest_some (less : α → α → Bool) (nonempty : xs ≠ []) :
    ∃ x, lastGreatest? less xs = some x := by
  cases xs with
  | nil => exact absurd rfl nonempty
  | cons => exact ⟨_, rfl⟩

section Extremes

variable (order : Preorders (· ∈ xs) less)
include order

private theorem least_decides : Decides (· ∈ xs) less where
  trans first second third below further :=
    order.less_behind first second third below (order.asymm second third further)
  beyond := order.less_behind

private theorem greatest_decides : Decides (· ∈ xs) fun a b => !less a b where
  trans first second third above further := by
    rw [Bool.not_eq_true'] at above further ⊢
    exact order.trans third second first further above
  beyond first second third above below := by
    rw [Bool.not_eq_true'] at above ⊢
    rw [Bool.not_eq_false'] at below
    exact order.asymm third first (order.less_behind third second first below above)

private theorem first_least_chosen (picked : firstLeast? less xs = some x) :
    ∃ i, Chosen less xs i x := by
  cases xs with
  | nil => cases picked
  | cons first rest =>
    cases picked
    exact pass_chosen (least_decides order) (fun _ member => member) (best_alone less first)

private theorem last_greatest_chosen (picked : lastGreatest? less xs = some x) :
    ∃ i, Chosen (fun a b => !less a b) xs i x := by
  cases xs with
  | nil => cases picked
  | cons first rest =>
    cases picked
    have pass := pass_chosen (greatest_decides order) (fun _ member => member)
      (best_alone (fun a b => !less a b) first)
    have same : (fun best y => if (!less y best) = true then y else best) =
        fun best y => if less y best = true then best else y := by
      funext best y
      cases less y best <;> rfl
    rwa [same] at pass

end Extremes

end Sorting

/-! ## The ends of the arrangement -/

section

open Sorting

variable {α : Type} {less : α → α → Bool} {xs : List α}

private theorem arranged_none (arranged : Arranges less xs []) : xs = [] := by
  have length := arranged.all.length_eq
  rw [List.length_range] at length
  exact List.length_eq_zero_iff.mp length.symm

private theorem arranged_first (arranged : Arranges less xs (i :: rest)) :
    ∃ x, Chosen less xs i x := by
  have all (j : Nat) : j ∈ i :: rest ↔ j < xs.length :=
    arranged.all.mem_iff.trans List.mem_range
  have here : i < xs.length := (all i).mp List.mem_cons_self
  have there := List.getElem?_eq_getElem here
  refine ⟨xs[i], there, fun j y other => ?_⟩
  have follows (apart : j ≠ i) : MayFollow less xs i j := by
    have listed := (all j).mpr (List.getElem?_eq_some_iff.mp other).1
    exact List.rel_of_pairwise_cons arranged.follow (List.mem_of_ne_of_mem apart listed)
  constructor
  · intro early
    obtain ⟨-, later⟩ := follows (Nat.ne_of_lt early) _ _ there other
    cases below : less xs[i] y with
    | true => rfl
    | false => exact absurd (later below) (Nat.lt_asymm early)
  · exact fun late => (follows (Nat.ne_of_gt late) _ _ there other).1

private theorem arranged_last (arranged : Arranges less xs (front ++ [i])) :
    ∃ x, Chosen (fun a b => !less a b) xs i x := by
  have all (j : Nat) : j ∈ front ++ [i] ↔ j < xs.length :=
    arranged.all.mem_iff.trans List.mem_range
  have here : i < xs.length := (all i).mp (by simp)
  have there := List.getElem?_eq_getElem here
  refine ⟨xs[i], there, fun j y other => ?_⟩
  have follows (apart : j ≠ i) : MayFollow less xs j i := by
    have listed := (all j).mpr (List.getElem?_eq_some_iff.mp other).1
    have early : j ∈ front := by simpa [apart] using listed
    exact (List.pairwise_append.mp arranged.follow).2.2 j early i List.mem_cons_self
  constructor
  · exact fun early => (Bool.not_eq_true' _).mpr (follows (Nat.ne_of_lt early) _ _ other there).1
  · intro late
    obtain ⟨-, later⟩ := follows (Nat.ne_of_gt late) _ _ other there
    refine (Bool.not_eq_false' _).mpr ?_
    cases below : less y xs[i] with
    | true => rfl
    | false => exact absurd (later below) (Nat.lt_asymm late)

/-- The first of the least elements is the first one when they are sorted. -/
theorem first_least_head (order : Preorders (· ∈ xs) less)
    (made : sortStable? less xs = some items) : firstLeast? less xs = items.head? := by
  obtain ⟨positions, arranged, sorted⟩ := sort_stable_arranges order
  cases made.symm.trans sorted
  cases positions with
  | nil =>
    cases arranged_none arranged
    rfl
  | cons i rest =>
    obtain ⟨x, first⟩ := arranged_first arranged
    obtain ⟨y, picked⟩ := first_least_some less (List.ne_nil_of_mem (List.mem_of_getElem? first.1))
    obtain ⟨j, chosen⟩ := first_least_chosen order picked
    rw [picked, List.filterMap_cons_some first.1, List.head?_cons, chosen_unique chosen first]

private theorem last_greatest_last (order : Preorders (· ∈ xs) less)
    (made : sortStable? less xs = some items) : lastGreatest? less xs = items.getLast? := by
  obtain ⟨positions, arranged, sorted⟩ := sort_stable_arranges order
  cases made.symm.trans sorted
  obtain rfl | ⟨front, i, rfl⟩ := List.eq_nil_or_concat' positions
  · cases arranged_none arranged
    rfl
  · obtain ⟨x, last⟩ := arranged_last arranged
    obtain ⟨y, picked⟩ := last_greatest_some less (List.ne_nil_of_mem (List.mem_of_getElem? last.1))
    obtain ⟨j, chosen⟩ := last_greatest_chosen order picked
    rw [picked, List.filterMap_append, List.filterMap_cons_some last.1, List.filterMap_nil,
      List.getLast?_concat, chosen_unique chosen last]

end

namespace Library
open Value Sorting

variable {key : Value → Except EvalError Value} {keys xs : List Value} {function other : String}

/-! ## The extremes among keys -/

/-- The position of the first of the least keys. -/
def FirstLeast (keys : List Value) (i : Nat) : Prop :=
  ∃ k, keys[i]? = some k ∧
    ∀ j l, keys[j]? = some l → k.AtMost l ∧ (k.compare? l = some .eq → i ≤ j)

/-- The position of the last of the greatest keys. -/
def LastGreatest (keys : List Value) (i : Nat) : Prop :=
  ∃ k, keys[i]? = some k ∧
    ∀ j l, keys[j]? = some l → l.AtMost k ∧ (l.compare? k = some .eq → j ≤ i)

private theorem at_most_self (ordered : TotallyPreordered keys) (member : k ∈ keys) : k.AtMost k :=
  or_self_iff.mp (ordered.total k member k member)

private theorem less_apart {k l : Value} (below : k.less l = true) :
    k.AtMost l ∧ k.compare? l ≠ some .eq := by
  have known : k.compare? l = some .lt := beq_iff_eq.mp below
  refine ⟨⟨_, known, rfl⟩, fun equal => ?_⟩
  cases known.symm.trans equal

private theorem first_least_of_chosen (ordered : TotallyPreordered keys)
    (chosen : Chosen less keys i k) :
    FirstLeast keys i := by
  obtain ⟨there, others⟩ := chosen
  have member := List.mem_of_getElem? there
  refine ⟨k, there, fun j l found => ?_⟩
  obtain ⟨before, behind⟩ := others j l found
  rcases Nat.lt_trichotomy j i with early | rfl | late
  · obtain ⟨most, apart⟩ := less_apart (before early)
    exact ⟨most, fun equal => absurd equal apart⟩
  · cases there.symm.trans found
    exact ⟨at_most_self ordered member, fun _ => Nat.le_refl _⟩
  · obtain ⟨order, known⟩ := comparable (ordered.total k member l (List.mem_of_getElem? found))
    exact ⟨(not_less_iff known).mp (behind late), fun _ => Nat.le_of_lt late⟩

private theorem last_greatest_of_chosen (ordered : TotallyPreordered keys)
    (chosen : Chosen (fun a b => !less a b) keys i k) : LastGreatest keys i := by
  obtain ⟨there, others⟩ := chosen
  have member := List.mem_of_getElem? there
  refine ⟨k, there, fun j l found => ?_⟩
  obtain ⟨before, behind⟩ := others j l found
  rcases Nat.lt_trichotomy j i with early | rfl | late
  · obtain ⟨order, known⟩ := comparable (ordered.total l (List.mem_of_getElem? found) k member)
    exact ⟨(not_less_iff known).mp ((Bool.not_eq_true' _).mp (before early)),
      fun _ => Nat.le_of_lt early⟩
  · cases there.symm.trans found
    exact ⟨at_most_self ordered member, fun _ => Nat.le_refl _⟩
  · obtain ⟨most, apart⟩ := less_apart ((Bool.not_eq_false' _).mp (behind late))
    exact ⟨most, fun equal => absurd equal apart⟩

/-- What is chosen among items with keys is the item at the place of the chosen key. -/
theorem chosen_key {wins : Value → Value → Bool} (same : keys.length = xs.length)
    (chosen : Chosen (fun a b => wins a.1 b.1) (keys.zip xs) i (k, x)) :
    Chosen wins keys i k ∧ xs[i]? = some x := by
  obtain ⟨there, others⟩ := chosen
  obtain ⟨atKeys, atItems⟩ := List.getElem?_zip_eq_some.mp there
  refine ⟨⟨atKeys, fun j l found => ?_⟩, atItems⟩
  have inside : j < xs.length := same ▸ (List.getElem?_eq_some_iff.mp found).1
  exact others j (l, xs[j])
    (List.getElem?_zip_eq_some.mpr ⟨found, List.getElem?_eq_getElem inside⟩)

/-- The extreme items stand at the ends of the sorted items. -/
theorem extremes_at_ends (ordered : TotallyPreordered keys) (xs : List Value) :
    ∃ items, sortedItems (keys.zip xs) = .ok (.arr items) ∧
      (firstLeast? lessByKey (keys.zip xs)).map Prod.snd = items.head? ∧
        (lastGreatest? lessByKey (keys.zip xs)).map Prod.snd = items.getLast? := by
  have order := pairs_preordered (less_preorders ordered) xs
  obtain ⟨positions, -, made⟩ := sort_stable_arranges order
  refine ⟨(positions.filterMap ((keys.zip xs)[·]?)).map Prod.snd, ?_, ?_, ?_⟩
  · rw [sortedItems, ascending, made]
    rfl
  · rw [first_least_head order made, List.head?_map]
  · rw [last_greatest_last order made, List.getLast?_map]

private theorem pairs_some (same : keys.length = xs.length) (nonempty : xs ≠ []) :
    keys.zip xs ≠ [] := by
  rw [← List.length_pos_iff] at nonempty ⊢
  rwa [List.length_zip, same, Nat.min_self]

private theorem least_place (ordered : TotallyPreordered keys) (same : keys.length = xs.length)
    (nonempty : xs ≠ []) : ∃ i x, FirstLeast keys i ∧ xs[i]? = some x ∧
      (firstLeast? lessByKey (keys.zip xs)).map Prod.snd = some x := by
  obtain ⟨⟨k, x⟩, picked⟩ := first_least_some lessByKey (pairs_some same nonempty)
  obtain ⟨i, chosen⟩ := first_least_chosen (pairs_preordered (less_preorders ordered) xs) picked
  obtain ⟨alone, there⟩ := chosen_key same chosen
  exact ⟨i, x, first_least_of_chosen ordered alone, there, congrArg (Option.map Prod.snd) picked⟩

private theorem greatest_place (ordered : TotallyPreordered keys) (same : keys.length = xs.length)
    (nonempty : xs ≠ []) : ∃ i x, LastGreatest keys i ∧ xs[i]? = some x ∧
      (lastGreatest? lessByKey (keys.zip xs)).map Prod.snd = some x := by
  obtain ⟨⟨k, x⟩, picked⟩ := last_greatest_some lessByKey (pairs_some same nonempty)
  obtain ⟨i, chosen⟩ := last_greatest_chosen (pairs_preordered (less_preorders ordered) xs) picked
  have placed : Chosen (fun a b => !less a b) keys i k ∧ xs[i]? = some x := chosen_key same chosen
  obtain ⟨alone, there⟩ := placed
  exact ⟨i, x, last_greatest_of_chosen ordered alone, there, congrArg (Option.map Prod.snd) picked⟩

/-! ## Failures of the same kind -/

/-- Both calls give a result, or both fail: with the error that an item has in place of a key, or with
the same complaint about a key of a wrong type, apart from the name of the function. -/
inductive FailAlike {α β : Type} (key : Value → Except EvalError Value) (xs : List Value)
    (function other : String) : Except EvalError α → Except EvalError β → Prop where
  | results (a : α) (b : β) : FailAlike key xs function other (.ok a) (.ok b)
  | evaluation (member : x ∈ xs) (fails : key x = .error why) :
      FailAlike key xs function other (.error why) (.error why)
  | type (member : x ∈ xs) (known : key x = .ok k)
      (unfit : ∀ t ∈ expected, t.acceptsValue k = false) :
      FailAlike key xs function other
        (.error (.call (.invalidType function 1 expected k.typeName)))
        (.error (.call (.invalidType other 1 expected k.typeName)))

private theorem keyed_fail_alike (function other : String) (key : Value → Except EvalError Value)
    (xs : List Value) :
    FailAlike key xs function other (keyed function key none xs) (keyed other key none xs) := by
  obtain ⟨keys, keyedBy, one⟩ | ⟨front, x, behind, keys, why, rfl, keyedBy, one, offends⟩ :=
    keys_or_offence (.inl (List.forall_mem_nil _)) function key xs
  · rw [keyed_ok keyedBy one, keyed_ok keyedBy one]
    exact .results _ _
  · have member : x ∈ front ++ x :: behind := by simp
    rw [keyed_error keyedBy one offends]
    cases offends with
    | evaluation fails =>
      rw [keyed_error keyedBy one (.evaluation fails)]
      exact .evaluation member fails
    | type known unfit =>
      rw [keyed_error keyedBy one (.type known unfit)]
      exact .type member known unfit

/-- What is made of the items with their keys has to succeed in both. -/
theorem FailAlike.next {α β γ δ : Type} {first : Except EvalError α} {second : Except EvalError β}
    {f : α → Except EvalError γ} {g : β → Except EvalError δ}
    (alike : FailAlike key xs function other first second)
    (makes : ∀ a, first = .ok a → ∃ c, f a = .ok c) (otherMakes : ∀ b, ∃ d, g b = .ok d) :
    FailAlike key xs function other (first >>= f) (second >>= g) := by
  cases alike with
  | results a b =>
    obtain ⟨c, made⟩ := makes a rfl
    obtain ⟨d, otherMade⟩ := otherMakes b
    have results : FailAlike key xs function other (f a) (g b) := by
      rw [made, otherMade]
      exact .results c d
    exact results
  | evaluation member fails => exact .evaluation member fails
  | type member known unfit => exact .type member known unfit

/-! ## Keys that are the items themselves -/

/-- Every item with itself as its key. -/
theorem own_pairs (xs : List Value) :
    List.Forall₂ (fun x pair => pair = (x, x)) xs (xs.zip xs) := by
  induction xs with
  | nil => exact .nil
  | cons x rest ih => exact .cons rfl ih

private theorem own_compares : ComparesAlike (fun x pair => pair = (x, x)) less lessByKey := by
  rintro a _ rfl c _ rfl
  rfl

private theorem sorted_by_itself (xs : List Value) : sortedItems (xs.zip xs) = sort xs := by
  have related := sort_stable_related own_compares (own_pairs xs)
  unfold sortedItems sort ascending
  generalize sortStable? less xs = alone at related ⊢
  generalize sortStable? lessByKey (xs.zip xs) = paired at related ⊢
  cases related with
  | none => rfl
  | @some items pairs related =>
    have same : pairs.map Prod.snd = items := by
      rw [← List.forall₂_eq_eq_eq, List.forall₂_map_left_iff]
      exact related.flip.imp fun _ _ same => congrArg Prod.snd same
    exact congrArg (Except.ok ∘ Value.arr) same

private theorem own_item {x : Option Value} {pair : Option (Value × Value)}
    (related : Option.Rel (fun x pair => pair = (x, x)) x pair) : pair.map Prod.snd = x := by
  cases related with
  | none => rfl
  | some same => exact congrArg (some ∘ Prod.snd) same

private theorem greatest_by_itself (xs : List Value) :
    (lastGreatest? lessByKey (xs.zip xs)).map Prod.snd = lastGreatest? less xs :=
  own_item (last_greatest_related own_compares (own_pairs xs))

private theorem least_by_itself (xs : List Value) :
    (firstLeast? lessByKey (xs.zip xs)).map Prod.snd = firstLeast? less xs :=
  own_item (first_least_related own_compares (own_pairs xs))

end Library

/-! ## The calls -/

namespace Expr
open Value Library

variable {s : Settings} {depth : Nat} {v : Value} {xs : List Value}

private theorem eval_max_by (builtin : s.functions.get? "max_by" = Registry.builtins.get? "max_by")
    (array : eval s (depth + 1) a v = .ok (.arr xs)) (e : Expr) :
    eval s depth (.call "max_by" [a, .reference e]) v =
      (do return ((lastGreatest? lessByKey
        (← keyed "max_by" (eval s (depth + 1) e) none xs)).map Prod.snd).getD .null) :=
  eval_keyed (builtin.trans rfl) array e

private theorem eval_min_by (builtin : s.functions.get? "min_by" = Registry.builtins.get? "min_by")
    (array : eval s (depth + 1) a v = .ok (.arr xs)) (e : Expr) :
    eval s depth (.call "min_by" [a, .reference e]) v =
      (do return ((firstLeast? lessByKey
        (← keyed "min_by" (eval s (depth + 1) e) none xs)).map Prod.snd).getD .null) :=
  eval_keyed (builtin.trans rfl) array e

section

variable {e : Expr} {keys : List Value} (array : eval s (depth + 1) a v = .ok (.arr xs))
  (keyedBy : HaveKeys (eval s (depth + 1) e) xs keys) (one : OneKind keys)
include array keyedBy one

private theorem max_by_keys
    (builtin : s.functions.get? "max_by" = Registry.builtins.get? "max_by") :
    eval s depth (.call "max_by" [a, .reference e]) v =
      .ok (((lastGreatest? lessByKey (keys.zip xs)).map Prod.snd).getD .null) := by
  rw [eval_max_by builtin array, keyed_ok keyedBy one]
  rfl

private theorem min_by_keys
    (builtin : s.functions.get? "min_by" = Registry.builtins.get? "min_by") :
    eval s depth (.call "min_by" [a, .reference e]) v =
      .ok (((firstLeast? lessByKey (keys.zip xs)).map Prod.snd).getD .null) := by
  rw [eval_min_by builtin array, keyed_ok keyedBy one]
  rfl

end

private theorem own_keys {s : Settings} (room : s.exceeded? depth = none) (xs : List Value) :
    HaveKeys (eval s depth .current) xs xs := by
  refine List.forall₂_same.mpr fun x _ => ?_
  rw [eval, room]

/-- The least item by a key is the first of the items sorted by it, and the greatest is the last, when
the keys are totally preordered; among equal keys these are the earliest item and the latest. As long as
the sort does not give up, the three functions fail on the same arrays and with the same error, up to
their names; where it gives up the other two have a result. Without keys, items of one kind are treated
as if each were its own key. -/
theorem extremes_agree
    (builtin : ∀ name ∈ ["max", "max_by", "min", "min_by", "sort", "sort_by"],
      s.functions.get? name = Registry.builtins.get? name)
    (array : eval s (depth + 1) a v = .ok (.arr xs)) (e : Expr) :
    let byKey name e := eval s depth (.call name [a, .reference e]) v
    let alone name := eval s depth (.call name [a]) v
    let key := eval s (depth + 1) e
    ((∀ keys, HaveKeys key xs keys → ¬GivesUp keys) →
        FailAlike key xs "sort_by" "min_by" (byKey "sort_by" e) (byKey "min_by" e) ∧
          FailAlike key xs "sort_by" "max_by" (byKey "sort_by" e) (byKey "max_by" e)) ∧
      (∀ keys, HaveKeys key xs keys → OneKind keys → GivesUp keys →
        byKey "sort_by" e = .error .disorder ∧ (∃ least, byKey "min_by" e = .ok least) ∧
          ∃ greatest, byKey "max_by" e = .ok greatest) ∧
      (∀ keys, HaveKeys key xs keys → OneKind keys → TotallyPreordered keys → ∃ items,
        byKey "sort_by" e = .ok (.arr items) ∧
          byKey "min_by" e = .ok (items.head?.getD .null) ∧
          byKey "max_by" e = .ok (items.getLast?.getD .null) ∧
          (xs ≠ [] →
            (∃ i x, FirstLeast keys i ∧ xs[i]? = some x ∧ byKey "min_by" e = .ok x) ∧
            ∃ i x, LastGreatest keys i ∧ xs[i]? = some x ∧ byKey "max_by" e = .ok x)) ∧
      (OneKind xs → alone "sort" = byKey "sort_by" .current ∧
        alone "max" = byKey "max_by" .current ∧ alone "min" = byKey "min_by" .current ∧
        (TotallyPreordered xs → ∃ items, alone "sort" = .ok (.arr items) ∧
          alone "max" = .ok (items.getLast?.getD .null) ∧
          alone "min" = .ok (items.head?.getD .null))) := by
  intro byKey alone key
  have sortBy := builtin "sort_by" (by simp)
  have maxBy := builtin "max_by" (by simp)
  have minBy := builtin "min_by" (by simp)
  refine ⟨fun going => ?failing, fun keys keyedBy one gone => ?gone,
    fun keys keyedBy one ordered => ?byKey, fun one => ?alone⟩
  case failing =>
    have makes (pairs : List (Value × Value)) (found : keyed "sort_by" key none xs = .ok pairs) :
        ∃ sorted, sortedItems pairs = .ok sorted := by
      obtain ⟨keys, keyedBy, one⟩ := keyed_ok_iff.mp ⟨pairs, found⟩
      cases found.symm.trans (keyed_ok keyedBy one "sort_by")
      obtain ⟨gone, -⟩ | ⟨-, items, made⟩ := sorted_items_or keyedBy.length_eq.symm
      · exact absurd gone (going keys keyedBy)
      · exact ⟨_, made⟩
    dsimp only [byKey]
    rw [eval_sort_by sortBy array, eval_min_by minBy array, eval_max_by maxBy array]
    exact ⟨(keyed_fail_alike "sort_by" "min_by" key xs).next makes fun _ => ⟨_, rfl⟩,
      (keyed_fail_alike "sort_by" "max_by" key xs).next makes fun _ => ⟨_, rfl⟩⟩
  case gone =>
    exact ⟨sort_by_abandoned sortBy array keyedBy one gone,
      ⟨_, min_by_keys array keyedBy one minBy⟩, _, max_by_keys array keyedBy one maxBy⟩
  case byKey =>
    have same : keys.length = xs.length := keyedBy.length_eq.symm
    have sorted : byKey "sort_by" e = _ := sort_by_keys sortBy array keyedBy one
    have least : byKey "min_by" e = _ := min_by_keys array keyedBy one minBy
    have greatest : byKey "max_by" e = _ := max_by_keys array keyedBy one maxBy
    obtain ⟨items, made, first, last⟩ := extremes_at_ends ordered xs
    refine ⟨items, sorted.trans made, ?_, ?_, fun nonempty => ?_⟩
    · rw [least, first]
    · rw [greatest, last]
    · obtain ⟨i, x, leastAt, there, picked⟩ := least_place ordered same nonempty
      obtain ⟨j, y, greatestAt, otherThere, otherPicked⟩ := greatest_place ordered same nonempty
      rw [least, greatest, picked, otherPicked]
      exact ⟨⟨i, x, leastAt, there, rfl⟩, j, y, greatestAt, otherThere, rfl⟩
  case alone =>
    have sort : alone "sort" = Library.sort xs :=
      eval_of_items ((builtin "sort" (by simp)).trans rfl) array one
    have max : alone "max" = .ok (Library.max xs) :=
      eval_of_items (f := fun items => .ok (Library.max items)) ((builtin "max" (by simp)).trans rfl)
        array one
    have min : alone "min" = .ok (Library.min xs) :=
      eval_of_items (f := fun items => .ok (Library.min items)) ((builtin "min" (by simp)).trans rfl)
        array one
    have own := own_keys (room_of_ok array) xs
    have sorted : byKey "sort_by" .current = _ := sort_by_keys sortBy array own one
    have greatest : byKey "max_by" .current = _ := max_by_keys array own one maxBy
    have least : byKey "min_by" .current = _ := min_by_keys array own one minBy
    rw [sort, max, min, sorted, greatest, least, sorted_by_itself, greatest_by_itself,
      least_by_itself]
    refine ⟨rfl, rfl, rfl, fun ordered => ?_⟩
    obtain ⟨items, made, first, last⟩ := extremes_at_ends ordered xs
    rw [sorted_by_itself] at made
    rw [least_by_itself] at first
    rw [greatest_by_itself] at last
    exact ⟨items, made, by rw [Library.max, last], by rw [Library.min, first]⟩

/-- An integer and a double of the same value: the least item is the first of them and the greatest
the last, each in its own kind. -/
theorem extremes_agree_kinds :
    let s : Settings := ⟨.builtins, .insertion, some maxEvalDepth⟩
    let xs := [Value.int 1, .float (.ofInt 1)]
    (∀ name ∈ ["max", "max_by", "min", "min_by", "sort", "sort_by"],
        s.functions.get? name = Registry.builtins.get? name) ∧
      eval s 1 .current (.arr xs) = .ok (.arr xs) ∧ OneKind xs ∧ TotallyPreordered xs ∧
      eval s 0 (.call "min_by" [.current, .reference .current]) (.arr xs) = .ok (.int 1) ∧
      eval s 0 (.call "max_by" [.current, .reference .current]) (.arr xs) =
        .ok (.float (.ofInt 1)) := by
  intro s xs
  have builtin : ∀ name ∈ ["max", "max_by", "min", "min_by", "sort", "sort_by"],
      s.functions.get? name = Registry.builtins.get? name := fun _ _ => rfl
  have array : eval s 1 .current (.arr xs) = .ok (.arr xs) := rfl
  have one : OneKind xs := .inl (by simp [xs, isNumber])
  have equal : ∀ x ∈ xs, ∀ y ∈ xs, x.compare? y = some .eq := by decide +kernel
  have most : ∀ x ∈ xs, ∀ y ∈ xs, x.AtMost y := fun x first y second =>
    ⟨.eq, equal x first y second, rfl⟩
  have ordered : TotallyPreordered xs :=
    ⟨fun x first y second => .inl (most x first y second),
      fun x first _ _ y second _ _ => most x first y second⟩
  have own : HaveKeys (eval s 1 .current) xs xs := .cons rfl (.cons rfl .nil)
  obtain ⟨-, -, byKey, -⟩ := extremes_agree builtin array .current
  obtain ⟨items, -, -, -, places⟩ := byKey xs own one ordered
  obtain ⟨⟨i, x, ⟨k, there, least⟩, found, min⟩, latter⟩ := places (List.cons_ne_nil _ _)
  obtain ⟨j, y, ⟨l, otherThere, greatest⟩, otherFound, max⟩ := latter
  have earliest : i = 0 := Nat.le_zero.mp
    ((least 0 _ rfl).2 (equal k (List.mem_of_getElem? there) _ List.mem_cons_self))
  have latest : j = 1 := by
    have after := (greatest 1 _ rfl).2
      (equal _ (List.mem_cons_of_mem _ List.mem_cons_self) l (List.mem_of_getElem? otherThere))
    have inside := (List.getElem?_eq_some_iff.mp otherThere).1
    exact Nat.le_antisymm (Nat.le_of_lt_succ inside) after
  subst earliest latest
  cases found
  cases otherFound
  exact ⟨builtin, array, one, ordered, min, max⟩

/-- The sort by the items themselves is abandoned, and both extremes are found. -/
theorem extremes_without_sort :
    let s : Settings := ⟨.builtins, .insertion, some maxEvalDepth⟩
    let byKey name := eval s 0 (.call name [.current, .reference .current]) (.arr contrary)
    byKey "sort_by" = .error .disorder ∧ (∃ least, byKey "min_by" = .ok least) ∧
      ∃ greatest, byKey "max_by" = .ok greatest := by
  intro s byKey
  have array : eval s (0 + 1) .current (.arr contrary) = .ok (.arr contrary) := rfl
  have own : HaveKeys (eval s (0 + 1) .current) contrary contrary := own_keys rfl contrary
  have one : OneKind contrary := .inl (by decide)
  exact ⟨sort_by_abandoned rfl array own one contrary_gives_up,
    ⟨_, min_by_keys array own one rfl⟩, _, max_by_keys array own one rfl⟩

end Expr

end JsonQuery
