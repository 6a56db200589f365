import JsonQuery.Proofs.CallDispatch
import JsonQuery.Proofs.NumberOrder
import JsonQuery.Proofs.SortedRuns

/-! Sorting by keys. The keys of the items are computed in the order of the items, and each is held
against the first one; the first item that has no key, or none of the right type, decides the error.
When the keys are totally preordered, the items are taken in the one arrangement of their keys. Numbers
of both kinds need not be: integers that differ may be equal to the same double, and where the sort
notices that it gives up. -/
namespace JsonQuery

/-! ## The order of keys -/

namespace Value

/-- The two values have an order, and the first is not the greater one. -/
def AtMost (a b : Value) : Prop :=
  ∃ order, a.compare? b = some order ∧ order.isLE = true

/-- Being at most as great is transitive among the values. -/
def ComparesThrough (keys : List Value) : Prop :=
  ∀ a ∈ keys, ∀ b ∈ keys, ∀ c ∈ keys, a.AtMost b → b.AtMost c → a.AtMost c

/-- Any two of the values have an order, and the order is transitive. -/
structure TotallyPreordered (keys : List Value) : Prop where
  total : ∀ a ∈ keys, ∀ b ∈ keys, a.AtMost b ∨ b.AtMost a
  through : ComparesThrough keys

/-- Whether a value is an integer. -/
def isInteger : Value → Bool
  | .int _ => true
  | _ => false

/-- All keys are numbers, or all are strings. -/
def OneKind (keys : List Value) : Prop :=
  (∀ k ∈ keys, k.isNumber = true) ∨ ∀ k ∈ keys, k.isString = true

variable {a b : Value} {keys : List Value}

private theorem double_compare_swap (x y : Double) :
    y.compare? x = (x.compare? y).map Ordering.swap := by
  unfold Double.compare?
  cases x.rank? with
  | none => cases y.rank? <;> rfl
  | some i =>
    cases y.rank? with
    | none => rfl
    | some j => exact congrArg some Std.OrientedCmp.eq_swap

/-- Numbers that are not both integers are compared as doubles. -/
theorem compare_doubles (mixed : a.Mixed b) (first : a.toDouble? = some x)
    (second : b.toDouble? = some y) : a.compare? b = x.compare? y := by
  unfold compare?
  split
  · exact absurd rfl (mixed _ _ rfl)
  · cases first
  · rw [first, second]
    rfl

theorem compare_swapped (a b : Value) : b.compare? a = (a.compare? b).map Ordering.swap := by
  cases a with
  | int n =>
    cases b with
    | int m => exact congrArg some Std.OrientedCmp.eq_swap
    | float y =>
      have forth : (int n).compare? (float y) = _ := compare_doubles nofun rfl rfl
      have back : (float y).compare? (int n) = _ := compare_doubles nofun rfl rfl
      rw [forth, back]
      exact double_compare_swap _ y
    | _ => rfl
  | float x =>
    cases b with
    | int m =>
      have forth : (float x).compare? (int m) = _ := compare_doubles nofun rfl rfl
      have back : (int m).compare? (float x) = _ := compare_doubles nofun rfl rfl
      rw [forth, back]
      exact double_compare_swap x _
    | float y => exact double_compare_swap x y
    | _ => rfl
  | str s =>
    cases b with
    | str t => exact congrArg some Std.OrientedCmp.eq_swap
    | _ => rfl
  | _ => cases b <;> rfl

private theorem at_most_total (known : a.compare? b = some order) : a.AtMost b ∨ b.AtMost a := by
  have swapped := compare_swapped a b
  rw [known] at swapped
  cases order with
  | lt | eq => exact .inl ⟨_, known, rfl⟩
  | gt => exact .inr ⟨_, swapped, rfl⟩

theorem comparable (either : a.AtMost b ∨ b.AtMost a) : ∃ order, a.compare? b = some order := by
  obtain ⟨order, known, -⟩ | ⟨order, known, -⟩ := either
  · exact ⟨order, known⟩
  · have swapped := compare_swapped b a
    rw [known] at swapped
    exact ⟨_, swapped⟩

/-- Of values that have an order one is at most the other exactly when the other is not less. -/
theorem not_less_iff (known : a.compare? b = some order) : b.less a = false ↔ a.AtMost b := by
  have swapped := compare_swapped a b
  rw [known] at swapped
  unfold less AtMost
  rw [swapped, known]
  cases order <;> simp

/-- Values are alike for the sort exactly when they compare as equal. -/
theorem neither_less_iff (known : a.compare? b = some order) (most : a.AtMost b) :
    a.less b = false ↔ a.compare? b = some .eq := by
  obtain ⟨other, same, notGreater⟩ := most
  cases known.symm.trans same
  unfold less
  rw [known]
  cases order with
  | lt => decide
  | eq => decide
  | gt => cases notGreater

/-- The test of the sort is that of a total preorder when the values are totally preordered. -/
theorem less_preorders (ordered : TotallyPreordered keys) :
    Sorting.Preorders (· ∈ keys) less := by
  have iff {a b : Value} (first : a ∈ keys) (second : b ∈ keys) : b.less a = false ↔ a.AtMost b :=
    not_less_iff (comparable (ordered.total a first b second)).choose_spec
  constructor
  · intro a b first second below
    exact (iff first second).mpr ⟨.lt, beq_iff_eq.mp below, rfl⟩
  · intro a b c first second third forth back
    rw [iff first second] at forth
    rw [iff second third] at back
    exact (iff first third).mpr (ordered.through a first b second c third forth back)

/-- A number other than nan has its place among the doubles. -/
theorem number_ranked (number : a.isNumber = true) (known : a ≠ .float .nan) :
    ∃ x i, a.toDouble? = some x ∧ x.rank? = some i := by
  cases a with
  | int n => exact ⟨_, _, rfl, of_int_rank n⟩
  | float x =>
    cases x with
    | finite | infinite => exact ⟨_, _, rfl, rfl⟩
    | nan => exact absurd rfl known
  | _ => cases number

private theorem numbers_comparable (first : a.isNumber = true) (second : b.isNumber = true)
    (known : a ≠ .float .nan) (otherKnown : b ≠ .float .nan) :
    ∃ order, a.compare? b = some order := by
  obtain ⟨x, i, double, rank⟩ := number_ranked first known
  obtain ⟨y, j, otherDouble, otherRank⟩ := number_ranked second otherKnown
  by_cases mixed : a.Mixed b
  · exact ⟨_, (compare_doubles mixed double otherDouble).trans (compare_ranks rank otherRank)⟩
  · obtain ⟨n, m, rfl, rfl⟩ := not_mixed mixed
    exact ⟨_, rfl⟩

/-- Values that are ordered as the ranks of what they are made of are totally preordered. -/
theorem totally_preordered_of {ι κ : Type} [Ord κ] [Std.TransOrd κ] (make : ι → Value) (rank : ι → κ)
    (compares : ∀ x y, (make x).compare? (make y) = some (compare (rank x) (rank y)))
    (made : ∀ k ∈ keys, ∃ x, k = make x) : TotallyPreordered keys := by
  constructor
  · intro a first b second
    obtain ⟨x, rfl⟩ := made a first
    obtain ⟨y, rfl⟩ := made b second
    exact at_most_total (compares x y)
  · intro a first b second c third forth back
    obtain ⟨x, rfl⟩ := made a first
    obtain ⟨y, rfl⟩ := made b second
    obtain ⟨z, rfl⟩ := made c third
    obtain ⟨_, known, below⟩ := forth
    obtain ⟨_, otherKnown, further⟩ := back
    cases (compares x y).symm.trans known
    cases (compares y z).symm.trans otherKnown
    exact ⟨_, compares x z, Std.TransCmp.isLE_trans below further⟩

/-- Keys of one kind are totally preordered if they are strings, or integers, or else numbers that
are no nan and that are not ordered in a circle. -/
theorem totally_preordered_iff (one : OneKind keys) : TotallyPreordered keys ↔
    (∀ k ∈ keys, k.isString = true) ∨ (∀ k ∈ keys, k.isInteger = true) ∨
      (∀ k ∈ keys, k.isNumber = true) ∧ .float .nan ∉ keys ∧ ComparesThrough keys := by
  constructor
  · intro ordered
    obtain numbers | strings := one
    · refine .inr (.inr ⟨numbers, fun member => ?_, ordered.through⟩)
      obtain ⟨order, known, -⟩ := or_self_iff.mp (ordered.total _ member _ member)
      cases known
    · exact .inl strings
  · rintro (strings | integers | ⟨numbers, noNan, through⟩)
    · refine totally_preordered_of .str id (fun _ _ => rfl) fun k member => ?_
      have string := strings k member
      cases k with
      | str s => exact ⟨s, rfl⟩
      | _ => cases string
    · refine totally_preordered_of .int Int64.toInt (fun _ _ => rfl) fun k member => ?_
      have integer := integers k member
      cases k with
      | int n => exact ⟨n, rfl⟩
      | _ => cases integer
    · refine ⟨fun a first b second => ?_, through⟩
      obtain ⟨order, known⟩ := numbers_comparable (numbers a first) (numbers b second)
        (fun same => noNan (same ▸ first)) fun same => noNan (same ▸ second)
      exact at_most_total known

end Value

/-! ## The keys of items -/

namespace Library
open Value

/-- The types that the key behind the given ones may have: the first key may be a number or a string,
and each further one has to be of the type of the first. -/
def nextTypes : List Value → List DataType
  | [] => [.number, .string]
  | first :: _ => if first.isNumber then [.number] else [.string]

/-- An item has no key, or none that may stand behind the given ones. -/
inductive Offends (function : String) (key : Value → Except EvalError Value) (keys : List Value)
    (x : Value) : EvalError → Prop where
  | evaluation (fails : key x = .error why) : Offends function key keys x why
  | type (known : key x = .ok k) (unfit : ∀ t ∈ nextTypes keys, t.acceptsValue k = false) :
      Offends function key keys x (.call (.invalidType function 1 (nextTypes keys) k.typeName))

/-- The items have these keys. -/
abbrev HaveKeys (key : Value → Except EvalError Value) : List Value → List Value → Prop :=
  List.Forall₂ fun x k => key x = .ok k

variable {function : String} {key : Value → Except EvalError Value} {keys xs : List Value}

private theorem key_type_accepts (k : Value) (named : t = .number ∨ t = .string) :
    keyType? k = some t ↔ t.acceptsValue k = true := by
  obtain rfl | rfl := named <;> cases k <;> simp [keyType?, DataType.acceptsValue, isNumber]

/-- Keys are of one kind when they all have the same type. -/
theorem one_kind_typed : OneKind keys ↔
    ∃ t : DataType, (t = .number ∨ t = .string) ∧ ∀ k ∈ keys, keyType? k = some t := by
  have number (k : Value) : keyType? k = some .number ↔ k.isNumber = true :=
    key_type_accepts k (.inl rfl)
  have string (k : Value) : keyType? k = some .string ↔ k.isString = true := by
    cases k <;> simp [keyType?, isString]
  simp [OneKind, number, string]

private theorem one_kind_front (one : OneKind (keys ++ others)) : OneKind keys :=
  one.imp (fun all k member => all k (List.mem_append_left others member))
    fun all k member => all k (List.mem_append_left others member)

private theorem next_types_behind (typed : keyType? first = some t) (rest : List Value) :
    nextTypes (first :: rest) = [t] := by
  cases first <;> simp_all [nextTypes, keyType?, isNumber]

private theorem next_types_named (one : OneKind keys) (listed : t ∈ nextTypes keys) :
    t = .number ∨ t = .string := by
  cases keys with
  | nil => simpa [nextTypes] using listed
  | cons first rest =>
    obtain ⟨u, named, typed⟩ := one_kind_typed.mp one
    rw [next_types_behind (typed first List.mem_cons_self)] at listed
    cases List.mem_singleton.mp listed
    exact named

/-- Keys remain of one kind when the next one has a type that it may have. -/
theorem one_kind_next (one : OneKind keys) (k : Value) :
    OneKind (keys ++ [k]) ↔ ∃ t ∈ nextTypes keys, keyType? k = some t := by
  constructor
  · intro extended
    obtain ⟨t, named, typed⟩ := one_kind_typed.mp extended
    refine ⟨t, ?_, typed k (List.mem_append_right keys List.mem_cons_self)⟩
    cases keys with
    | nil => simpa [nextTypes] using named
    | cons first rest =>
      rw [next_types_behind (typed first List.mem_cons_self)]
      exact List.mem_cons_self
  · rintro ⟨t, listed, last⟩
    refine one_kind_typed.mpr ⟨t, next_types_named one listed, ?_⟩
    rw [List.forall_mem_append]
    refine ⟨fun other member => ?_, by simpa using last⟩
    obtain ⟨u, -, typed⟩ := one_kind_typed.mp one
    cases keys with
    | nil => cases member
    | cons first rest =>
      rw [next_types_behind (typed first List.mem_cons_self)] at listed
      cases List.mem_singleton.mp listed
      exact typed other member

/-- What the keys so far require of the next one. -/
def requirement (keys : List Value) : Option DataType :=
  keys.head?.bind keyType?

private theorem requirement_types (one : OneKind keys) :
    (requirement keys).elim [.number, .string] ([·]) = nextTypes keys := by
  cases keys with
  | nil => rfl
  | cons first rest =>
    obtain ⟨t, -, typed⟩ := one_kind_typed.mp one
    have known := typed first List.mem_cons_self
    rw [next_types_behind known, requirement, List.head?_cons, Option.bind_some, known]
    rfl

private theorem requirement_next (one : OneKind (keys ++ [k])) :
    requirement (keys ++ [k]) = keyType? k := by
  obtain ⟨t, -, typed⟩ := one_kind_typed.mp one
  rw [typed k (List.mem_append_right keys List.mem_cons_self), requirement]
  cases keys with
  | nil => exact typed k List.mem_cons_self
  | cons first rest => exact typed first List.mem_cons_self

/-- A key that fits is put before the item, and the others follow. -/
theorem keyed_fits (one : OneKind (keys ++ [k])) (known : key x = .ok k) (rest : List Value) :
    keyed function key (requirement keys) (x :: rest) =
      (keyed function key (requirement (keys ++ [k])) rest).map ((k, x) :: ·) := by
  obtain ⟨t, listed, typed⟩ := (one_kind_next (one_kind_front one) k).mp one
  rw [keyed, known]
  dsimp only [bind, Except.bind]
  rw [requirement_types (one_kind_front one), typed]
  dsimp only
  rw [if_pos listed, requirement_next one, typed]
  rfl

private theorem keyed_offends (one : OneKind keys) (offends : Offends function key keys x why)
    (rest : List Value) : keyed function key (requirement keys) (x :: rest) = .error why := by
  rw [keyed]
  cases offends with
  | evaluation fails =>
    rw [fails]
    rfl
  | @type k known unfit =>
    rw [known]
    dsimp only [bind, Except.bind]
    rw [requirement_types one]
    cases typed : keyType? k with
    | none => rfl
    | some t =>
      dsimp only
      refine if_neg fun listed => ?_
      rw [key_type_accepts k (next_types_named one listed), unfit t listed] at typed
      cases typed

/-- Every item has a key that fits, or is an offence. -/
theorem fits_or_offends (one : OneKind keys) (function : String)
    (key : Value → Except EvalError Value) (x : Value) :
    (∃ k, key x = .ok k ∧ OneKind (keys ++ [k])) ∨ ∃ why, Offends function key keys x why := by
  cases known : key x with
  | error why => exact .inr ⟨why, .evaluation known⟩
  | ok k =>
    by_cases fits : OneKind (keys ++ [k])
    · exact .inl ⟨k, rfl, fits⟩
    · refine .inr ⟨_, .type known fun t listed => ?_⟩
      rw [← Bool.not_eq_true, ← key_type_accepts k (next_types_named one listed)]
      exact fun typed => fits ((one_kind_next one k).mpr ⟨t, listed, typed⟩)

/-- Items whose keys fit hand on to those behind them. -/
theorem keyed_front (keyedBy : HaveKeys key front new) (one : OneKind (keys ++ new))
    (function : String) (rest : List Value) :
    keyed function key (requirement keys) (front ++ rest) =
      (keyed function key (requirement (keys ++ new)) rest).map (new.zip front ++ ·) := by
  induction keyedBy generalizing keys with
  | nil =>
    rw [List.append_nil, List.nil_append]
    cases keyed function key (requirement keys) rest <;> rfl
  | @cons x k front new known _ ih =>
    rw [List.append_cons keys k new] at one ⊢
    rw [List.cons_append, keyed_fits (one_kind_front one) known, ih one]
    cases keyed function key (requirement (keys ++ [k] ++ new)) rest <;> rfl

theorem keyed_ok (keyedBy : HaveKeys key xs keys) (one : OneKind keys) (function : String) :
    keyed function key none xs = .ok (keys.zip xs) := by
  have whole := keyed_front keyedBy (show OneKind ([] ++ keys) from one) function []
  rwa [List.append_nil, keyed, Except.map, List.append_nil] at whole

theorem keyed_error (keyedBy : HaveKeys key front keys) (one : OneKind keys)
    (offends : Offends function key keys x why) (behind : List Value) :
    keyed function key none (front ++ x :: behind) = .error why := by
  have whole := keyed_front keyedBy (show OneKind ([] ++ keys) from one) function (x :: behind)
  rwa [List.nil_append, keyed_offends one offends] at whole

/-- Either all items have keys that fit, or there is a first offence. -/
theorem keys_or_offence (one : OneKind keys) (function : String)
    (key : Value → Except EvalError Value) (xs : List Value) :
    (∃ new, HaveKeys key xs new ∧ OneKind (keys ++ new)) ∨
      ∃ front x behind new why, xs = front ++ x :: behind ∧ HaveKeys key front new ∧
        OneKind (keys ++ new) ∧ Offends function key (keys ++ new) x why := by
  induction xs generalizing keys with
  | nil => exact .inl ⟨[], .nil, by rwa [List.append_nil]⟩
  | cons x rest ih =>
    obtain ⟨k, known, fits⟩ | ⟨why, offends⟩ := fits_or_offends one function key x
    · obtain ⟨new, others, all⟩ | ⟨front, bad, behind, new, why, rfl, others, all, offends⟩ := ih fits
      · exact .inl ⟨k :: new, .cons known others, by rwa [List.append_cons]⟩
      · refine .inr ⟨x :: front, bad, behind, k :: new, why, rfl, .cons known others, ?_, ?_⟩
        · rwa [List.append_cons]
        · rwa [List.append_cons]
    · exact .inr ⟨[], x, rest, [], why, rfl, .nil, by rwa [List.append_nil],
        by rwa [List.append_nil]⟩

theorem keyed_ok_iff : (∃ pairs, keyed function key none xs = .ok pairs) ↔
    ∃ keys, HaveKeys key xs keys ∧ OneKind keys := by
  constructor
  · rintro ⟨pairs, result⟩
    obtain keyedBy | ⟨front, x, behind, new, why, rfl, before, one, offends⟩ :=
      keys_or_offence (.inl (List.forall_mem_nil _)) function key xs
    · exact keyedBy
    · cases result.symm.trans (keyed_error before one offends behind)
  · rintro ⟨keys, keyedBy, one⟩
    exact ⟨_, keyed_ok keyedBy one function⟩

private theorem keyed_error_iff : keyed function key none xs = .error why ↔
    ∃ front x behind keys, xs = front ++ x :: behind ∧ HaveKeys key front keys ∧ OneKind keys ∧
      Offends function key keys x why := by
  constructor
  · intro result
    obtain ⟨keys, keyedBy, one⟩ | ⟨front, x, behind, new, other, rfl, before, one, offends⟩ :=
      keys_or_offence (.inl (List.forall_mem_nil _)) function key xs
    · cases result.symm.trans (keyed_ok keyedBy one function)
    · cases result.symm.trans (keyed_error before one offends behind)
      exact ⟨front, x, behind, new, rfl, before, one, offends⟩
  · rintro ⟨front, x, behind, keys, rfl, before, one, offends⟩
    exact keyed_error before one offends behind

/-! ## The arrangement of items by their keys -/

/-- All positions of the keys, so that no key stands behind a greater one and keys that are equal
stand in the order given. -/
structure InKeyOrder (keys : List Value) (positions : List Nat) : Prop where
  all : positions.Perm (List.range keys.length)
  ascending : positions.Pairwise fun i j =>
    ∀ a b, keys[i]? = some a → keys[j]? = some b → a.AtMost b
  stable : positions.Pairwise fun i j =>
    ∀ a b, keys[i]? = some a → keys[j]? = some b → a.compare? b = some .eq → i < j

private theorem in_key_order_iff (ordered : TotallyPreordered keys) (positions : List Nat) :
    InKeyOrder keys positions ↔ Arranges less keys positions := by
  have known {i j : Nat} {a b : Value} (first : keys[i]? = some a) (second : keys[j]? = some b) :
      ∃ order, a.compare? b = some order :=
    comparable (ordered.total a (List.mem_of_getElem? first) b (List.mem_of_getElem? second))
  constructor
  · rintro ⟨all, ascending, stable⟩
    refine ⟨all, (ascending.and stable).imp fun both a b first second => ?_⟩
    obtain ⟨order, compares⟩ := known first second
    have most := both.1 a b first second
    refine ⟨(not_less_iff compares).mpr most, fun notLess => ?_⟩
    exact both.2 a b first second ((neither_less_iff compares most).mp notLess)
  · rintro ⟨all, follow⟩
    refine ⟨all, follow.imp fun may a b first second => ?_, follow.imp fun may a b first second => ?_⟩
    · obtain ⟨order, compares⟩ := known first second
      exact (not_less_iff compares).mp (may a b first second).1
    · intro equal
      refine (may a b first second).2 ?_
      unfold less
      rw [equal]
      rfl

theorem pairs_preordered (ordered : Sorting.Preorders (· ∈ keys) less) (xs : List Value) :
    Sorting.Preorders (· ∈ keys.zip xs) lessByKey where
  asymm first second := ordered.asymm (List.of_mem_zip first).1 (List.of_mem_zip second).1
  trans first second third := ordered.trans (List.of_mem_zip first).1 (List.of_mem_zip second).1
    (List.of_mem_zip third).1

/-- Items are arranged with their keys as the keys are alone. -/
theorem pairs_arranged (same : keys.length = xs.length)
    (arranged : Arranges lessByKey (keys.zip xs) positions) : Arranges less keys positions := by
  have length : (keys.zip xs).length = keys.length := by
    rw [List.length_zip, same, Nat.min_self]
  refine ⟨length ▸ arranged.all, arranged.follow.imp fun may a b first second => ?_⟩
  have item {i : Nat} {k : Value} (there : keys[i]? = some k) :
      ∃ x, (keys.zip xs)[i]? = some (k, x) := by
    obtain ⟨inside, rfl⟩ := List.getElem?_eq_some_iff.mp there
    exact ⟨_, List.getElem?_zip_eq_some.mpr ⟨there, List.getElem?_eq_getElem (same ▸ inside)⟩⟩
  obtain ⟨x, atFirst⟩ := item first
  obtain ⟨y, atSecond⟩ := item second
  exact may _ _ atFirst atSecond

private theorem items_taken (same : keys.length = xs.length) (positions : List Nat) :
    (positions.filterMap ((keys.zip xs)[·]?)).map Prod.snd = positions.filterMap (xs[·]?) := by
  rw [List.map_filterMap]
  refine List.filterMap_congr fun i _ => ?_
  rw [← List.getElem?_map, List.map_snd_zip same.ge]

/-- The keys contradict each other where a sort of them notices it. -/
def GivesUp (keys : List Value) : Prop :=
  sortStable? less keys = none

/-- What sorting makes of the items with their keys. -/
def sortedItems (pairs : List (Value × Value)) : Except EvalError Value := do
  return .arr ((← ascending lessByKey pairs).map Prod.snd)

private theorem key_pairs (same : keys.length = xs.length) :
    List.Forall₂ (fun k pair => k = pair.1) keys (keys.zip xs) := by
  have firsts := List.map_fst_zip same.le
  rw [← List.forall₂_map_right_iff, firsts]
  exact List.forall₂_same.mpr fun _ _ => rfl

private theorem keys_compare : ComparesAlike (fun k pair => k = pair.1) less lessByKey := by
  rintro _ a rfl _ b rfl
  rfl

/-- Items are sorted with their keys as long as the keys alone would be. -/
theorem pairs_give_up (same : keys.length = xs.length) :
    sortStable? lessByKey (keys.zip xs) = none ↔ GivesUp keys := by
  have related := sort_stable_related keys_compare (key_pairs same)
  unfold GivesUp
  generalize sortStable? less keys = alone at related ⊢
  generalize sortStable? lessByKey (keys.zip xs) = paired at related ⊢
  cases related <;> simp

theorem sorted_items_or (same : keys.length = xs.length) :
    GivesUp keys ∧ sortedItems (keys.zip xs) = .error .disorder ∨
      ¬GivesUp keys ∧ ∃ items, sortedItems (keys.zip xs) = .ok (.arr items) := by
  rw [← pairs_give_up same]
  unfold sortedItems ascending
  cases sortStable? lessByKey (keys.zip xs) with
  | none => exact .inl ⟨rfl, rfl⟩
  | some => exact .inr ⟨nofun, _, rfl⟩

/-- When the keys are totally preordered, the items are taken in the one order of their keys. -/
theorem sorted_in_key_order (ordered : TotallyPreordered keys) (same : keys.length = xs.length) :
    ∃ positions, InKeyOrder keys positions ∧
      (∀ others, InKeyOrder keys others → others = positions) ∧
      sortedItems (keys.zip xs) = .ok (.arr (positions.filterMap (xs[·]?))) := by
  obtain ⟨positions, arranged, sorted⟩ :=
    sort_stable_arranges (pairs_preordered (less_preorders ordered) xs)
  have alone := pairs_arranged same arranged
  refine ⟨positions, (in_key_order_iff ordered positions).mpr alone, fun others inOrder => ?_, ?_⟩
  · exact arranges_unique ((in_key_order_iff ordered others).mp inOrder) alone
  · unfold sortedItems ascending
    rw [sorted, ← items_taken same]
    rfl

theorem preordered_going (ordered : TotallyPreordered keys) : ¬GivesUp keys := by
  obtain ⟨positions, -, sorted⟩ := sort_stable_arranges (less_preorders ordered)
  unfold GivesUp
  rw [sorted]
  exact nofun

/-- Numbers around the least integer that is no double. The double is equal to both integers, which are
not equal to each other, and in this arrangement a sort comes upon that. -/
def contrary : List Value :=
  [.int 9007199254740993, .int 9007199254740992] ++
    (List.replicate 9 (.int 9007199254740993) ++
      (.float (.ofInt 9007199254740992) :: List.replicate 12 (.int 9007199254740992)))

theorem sort_gives_up (gone : GivesUp xs) : sort xs = .error .disorder := by
  rw [sort, ascending, show sortStable? less xs = none from gone]
  rfl

theorem contrary_gives_up : GivesUp contrary := by
  have gone : (sortStable? less contrary).isNone = true := by decide +kernel
  exact Option.isNone_iff_eq_none.mp gone

end Library

/-! ## The call -/

namespace Expr
open Value Library

variable {s : Settings} {depth : Nat} {v : Value} {xs : List Value}

/-- A function that makes its result of the items with their keys. -/
theorem eval_keyed {finish : List (Value × Value) → Except EvalError Value}
    (known : s.functions.get? name = some
      ⟨taking [[.array], [.reference]], fun args => keyedItems name args >>= finish⟩)
    (array : eval s (depth + 1) a v = .ok (.arr xs)) (e : Expr) :
    eval s depth (.call name [a, .reference e]) v =
      keyed name (eval s (depth + 1) e) none xs >>= finish := by
  have both : (taking [[.array], [.reference]]).AcceptsAll
      [.value (.arr xs), .expression e (eval s (depth + 1) e)] :=
    Signature.accepts_all_two ⟨_, rfl, rfl⟩ ⟨_, rfl, rfl⟩
  rw [eval_accepted (room_around (room_of_ok array)) known
    (.cons (.value (array_evaluated array) array) (.cons .reference .nil)) both rfl]
  rfl

/-- A function of items of one kind is called with them. -/
theorem eval_of_items {f : List Value → Except EvalError Value}
    (known : s.functions.get? name = some
      ⟨taking [[.numbers, .strings]], fun args => f (itemsAt args 0)⟩)
    (array : eval s (depth + 1) a v = .ok (.arr xs)) (one : OneKind xs) :
    eval s depth (.call name [a]) v = f xs := by
  have accepted : (Parameter.mk [.numbers, .strings]).accepts (.value (.arr xs) : Argument) =
      true := by
    simpa [Parameter.accepts, DataType.accepts, DataType.acceptsValue, OneKind] using one
  have all : (taking [[.numbers, .strings]]).AcceptsAll [.value (.arr xs)] :=
    Signature.accepts_all_one ⟨_, rfl, accepted⟩
  exact eval_accepted (room_around (room_of_ok array)) known
    (.cons (.value (array_evaluated array) array) .nil) all rfl

theorem eval_sort_by (builtin : s.functions.get? "sort_by" = Registry.builtins.get? "sort_by")
    (array : eval s (depth + 1) a v = .ok (.arr xs)) (e : Expr) :
    eval s depth (.call "sort_by" [a, .reference e]) v =
      keyed "sort_by" (eval s (depth + 1) e) none xs >>= sortedItems :=
  eval_keyed (builtin.trans rfl) array e

section

variable {e : Expr} {keys : List Value}
  (builtin : s.functions.get? "sort_by" = Registry.builtins.get? "sort_by")
  (array : eval s (depth + 1) a v = .ok (.arr xs))
  (keyedBy : HaveKeys (eval s (depth + 1) e) xs keys) (one : OneKind keys)
include builtin array keyedBy one

theorem sort_by_keys : eval s depth (.call "sort_by" [a, .reference e]) v =
    sortedItems (keys.zip xs) := by
  rw [eval_sort_by builtin array, keyed_ok keyedBy one]
  rfl

theorem sort_by_abandoned (gone : GivesUp keys) :
    eval s depth (.call "sort_by" [a, .reference e]) v = .error .disorder := by
  rw [sort_by_keys builtin array keyedBy one]
  obtain ⟨-, abandoned⟩ | ⟨going, -⟩ := sorted_items_or keyedBy.length_eq.symm
  · exact abandoned
  · exact absurd gone going

end

/-- Sorting by keys succeeds exactly when every item has a key, all keys are numbers or all are strings,
and the sort does not give up on them. Otherwise the first item without a fitting key is the error, or
the evaluation is abandoned. When the keys are totally preordered, the sort does not give up, and the
result has the items in the one order in which no key stands behind a greater one and items with equal
keys stand as they were given. -/
theorem sort_by_checked_stable
    (builtin : s.functions.get? "sort_by" = Registry.builtins.get? "sort_by")
    (array : eval s (depth + 1) a v = .ok (.arr xs)) (e : Expr) :
    let sorted := eval s depth (.call "sort_by" [a, .reference e]) v
    let key := eval s (depth + 1) e
    ((∃ result, sorted = .ok result) ↔
        ∃ keys, HaveKeys key xs keys ∧ OneKind keys ∧ ¬GivesUp keys) ∧
      (∀ why, sorted = .error why ↔ (∃ front x behind keys, xs = front ++ x :: behind ∧
          HaveKeys key front keys ∧ OneKind keys ∧ Offends "sort_by" key keys x why) ∨
        why = .disorder ∧ ∃ keys, HaveKeys key xs keys ∧ OneKind keys ∧ GivesUp keys) ∧
      ∀ keys, HaveKeys key xs keys → OneKind keys →
        (TotallyPreordered keys ↔ (∀ k ∈ keys, k.isString = true) ∨
          (∀ k ∈ keys, k.isInteger = true) ∨
            (∀ k ∈ keys, k.isNumber = true) ∧ .float .nan ∉ keys ∧ ComparesThrough keys) ∧
        (TotallyPreordered keys → ¬GivesUp keys ∧ ∃ positions, InKeyOrder keys positions ∧
          (∀ others, InKeyOrder keys others → others = positions) ∧
          sorted = .ok (.arr (positions.filterMap (xs[·]?)))) := by
  intro sorted key
  have run : sorted = keyed "sort_by" key none xs >>= sortedItems := eval_sort_by builtin array e
  have found {keys : List Value} (keyedBy : HaveKeys key xs keys) (one : OneKind keys) :
      sorted = sortedItems (keys.zip xs) ∧ keys.length = xs.length :=
    ⟨sort_by_keys builtin array keyedBy one, keyedBy.length_eq.symm⟩
  have missing {why : EvalError} (failed : keyed "sort_by" key none xs = .error why) :
      sorted = .error why := by
    rw [run, failed]
    rfl
  refine ⟨⟨fun ⟨result, succeeds⟩ => ?gives, fun ⟨keys, keyedBy, one, going⟩ => ?given⟩,
    fun why => ⟨fun fails => ?fails, ?failed⟩, fun keys keyedBy one =>
      ⟨totally_preordered_iff one, fun ordered => ⟨preordered_going ordered, ?sorts⟩⟩⟩
  case gives =>
    cases pairs : keyed "sort_by" key none xs with
    | error => cases succeeds.symm.trans (missing pairs)
    | ok =>
      obtain ⟨keys, keyedBy, one⟩ := keyed_ok_iff.mp ⟨_, pairs⟩
      obtain ⟨same, lengths⟩ := found keyedBy one
      obtain ⟨-, gone⟩ | ⟨going, -⟩ := sorted_items_or lengths
      · cases succeeds.symm.trans (same.trans gone)
      · exact ⟨keys, keyedBy, one, going⟩
  case given =>
    obtain ⟨same, lengths⟩ := found keyedBy one
    obtain ⟨gone, -⟩ | ⟨-, items, made⟩ := sorted_items_or lengths
    · exact absurd gone going
    · exact ⟨_, same.trans made⟩
  case fails =>
    cases pairs : keyed "sort_by" key none xs with
    | error =>
      cases fails.symm.trans (missing pairs)
      exact .inl (keyed_error_iff.mp pairs)
    | ok =>
      obtain ⟨keys, keyedBy, one⟩ := keyed_ok_iff.mp ⟨_, pairs⟩
      obtain ⟨same, lengths⟩ := found keyedBy one
      obtain ⟨gone, abandoned⟩ | ⟨-, items, made⟩ := sorted_items_or lengths
      · cases fails.symm.trans (same.trans abandoned)
        exact .inr ⟨rfl, keys, keyedBy, one, gone⟩
      · cases fails.symm.trans (same.trans made)
  case failed =>
    rintro (offence | ⟨rfl, keys, keyedBy, one, gone⟩)
    · exact missing (keyed_error_iff.mpr offence)
    · exact sort_by_abandoned builtin array keyedBy one gone
  case sorts =>
    obtain ⟨same, lengths⟩ := found keyedBy one
    obtain ⟨positions, inOrder, only, taken⟩ := sorted_in_key_order ordered lengths
    exact ⟨positions, inOrder, only, same.trans taken⟩

/-- Rows with equal keys stand as they were given. -/
theorem sort_by_checked_stable_rows :
    let s : Settings := ⟨.builtins, .insertion, some maxEvalDepth⟩
    let rows := [Value.arr [.int 2, .str "a"], .arr [.int 1, .str "b"], .arr [.int 2, .str "c"]]
    s.functions.get? "sort_by" = Registry.builtins.get? "sort_by" ∧
      eval s 1 .current (.arr rows) = .ok (.arr rows) ∧
      eval s 0 (.call "sort_by" [.current, .reference (.index 0)]) (.arr rows) =
        .ok (.arr [.arr [.int 1, .str "b"], .arr [.int 2, .str "a"], .arr [.int 2, .str "c"]]) := by
  intro s rows
  have builtin : s.functions.get? "sort_by" = Registry.builtins.get? "sort_by" := rfl
  have array : eval s 1 .current (.arr rows) = .ok (.arr rows) := rfl
  have keyedBy : HaveKeys (eval s 1 (.index 0)) rows [.int 2, .int 1, .int 2] :=
    .cons rfl (.cons rfl (.cons rfl .nil))
  have one : OneKind [.int 2, .int 1, .int 2] := .inl (by simp [isNumber])
  obtain ⟨-, -, sorts⟩ := sort_by_checked_stable builtin array (.index 0)
  obtain ⟨ordered, sorts⟩ := sorts _ keyedBy one
  obtain ⟨-, positions, -, only, sorted⟩ := sorts (ordered.mpr (.inr (.inl (by simp [isInteger]))))
  have inOrder : InKeyOrder [.int 2, .int 1, .int 2] [1, 0, 2] := by
    have below : (int 1).AtMost (int 2) := ⟨_, rfl, rfl⟩
    have equal : (int 2).AtMost (int 2) := ⟨_, rfl, rfl⟩
    have apart : (int 1).compare? (int 2) ≠ some .eq := by decide
    exact ⟨by decide, by simp [below, equal], by simp [apart]⟩
  refine ⟨builtin, array, ?_⟩
  rw [sorted, ← only _ inOrder]
  rfl

/-- Items that are numbers and their own keys, and no sorted array of them. -/
theorem sort_by_given_up :
    let s : Settings := ⟨.builtins, .insertion, some maxEvalDepth⟩
    HaveKeys (eval s 1 .current) contrary contrary ∧ OneKind contrary ∧
      eval s 0 (.call "sort_by" [.current, .reference .current]) (.arr contrary) =
        .error .disorder := by
  intro s
  have own : HaveKeys (eval s 1 .current) contrary contrary :=
    List.forall₂_same.mpr fun _ _ => rfl
  have one : OneKind contrary := .inl (by decide)
  have array : eval s (0 + 1) .current (.arr contrary) = .ok (.arr contrary) := rfl
  exact ⟨own, one, sort_by_abandoned rfl array own one contrary_gives_up⟩

end Expr

end JsonQuery
