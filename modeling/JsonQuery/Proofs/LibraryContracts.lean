import Mathlib.Data.Set.List
import JsonQuery.Proofs.CallDispatch
import JsonQuery.Proofs.Failures
import JsonQuery.Proofs.KeyedSorting

/-! What the functions of the library promise. Arguments that pass the checks have the shapes that a
signature names, so that no function ever falls back to null for a shape it does not treat. The
functions that evaluate an expression fail only where it fails, or where its keys do not fit. Only a
sort is abandoned, and only where the order of the items, or of their keys, is no total preorder. -/
namespace JsonQuery

/-! ## Checked arguments -/

/-- What an argument of a type looks like. -/
inductive Shaped : DataType → Argument → Prop where
  | any : Shaped .any (.value v)
  | number (number : v.isNumber = true) : Shaped .number (.value v)
  | string : Shaped .string (.value (.str s))
  | boolean : Shaped .boolean (.value (.bool b))
  | array : Shaped .array (.value (.arr items))
  | object : Shaped .object (.value (.obj entries))
  | null : Shaped .null (.value .null)
  | reference : Shaped .reference (.expression e evaluate)
  | numbers (all : ∀ item ∈ items, item.isNumber = true) : Shaped .numbers (.value (.arr items))
  | strings (texts : List String) : Shaped .strings (.value (.arr (texts.map .str)))

private theorem mapped_of_each {α β : Type} {f : β → α} {items : List α}
    (each : ∀ a ∈ items, ∃ b, a = f b) : ∃ parts : List β, items = parts.map f := by
  have mapped : items ∈ Set.range (List.map f) := by
    rw [Set.range_list_map]
    exact fun a member => (each a member).imp fun _ => Eq.symm
  exact mapped.imp fun _ => Eq.symm

private theorem texts_of_strings {items : List Value} (all : ∀ item ∈ items, item.isString = true) :
    ∃ texts : List String, items = texts.map .str := by
  refine mapped_of_each fun item member => ?_
  cases item with
  | str s => exact ⟨s, rfl⟩
  | _ => cases all _ member

private theorem shaped_of_accepts {t : DataType} {a : Argument} (accepts : t.accepts a = true) :
    Shaped t a := by
  cases a with
  | expression e evaluate =>
    cases of_decide_eq_true accepts
    exact .reference
  | value v =>
    have accepts : t.acceptsValue v = true := accepts
    unfold DataType.acceptsValue at accepts
    split at accepts
    · exact .any
    · exact .number accepts
    · exact .string
    · exact .boolean
    · exact .array
    · exact .object
    · exact .null
    · exact .numbers (List.all_eq_true.mp accepts)
    · obtain ⟨texts, rfl⟩ := texts_of_strings (List.all_eq_true.mp accepts)
      exact .strings texts
    · cases accepts

private theorem value_of_shaped (shaped : Shaped t a) (evaluated : t ≠ .reference) :
    ∃ v, a = .value v := by
  cases shaped with
  | reference => exact absurd rfl evaluated
  | _ => exact ⟨_, rfl⟩

private theorem shaped_of_parameter (accepts : Parameter.accepts ⟨types⟩ a = true) :
    ∃ t ∈ types, Shaped t a := by
  obtain ⟨t, listed, takes⟩ := List.any_eq_true.mp accepts
  exact ⟨t, listed, shaped_of_accepts takes⟩

/-- Arguments that pass the checks come one to each parameter, in its shape. -/
theorem taking_shapes (counted : (Library.taking params).checkArity name args.length = .ok ())
    (typed : (Library.taking params).checkTypes name args = .ok ()) :
    List.Forall₂ (fun types a => ∃ t ∈ types, Shaped t a) params args := by
  have fits := Signature.fits_of_check counted
  have accepts := Signature.accepts_of_check fits typed
  have length : args.length = params.length := by
    simpa [Signature.Fits, Signature.repeats, Signature.params, Library.taking] using fits
  refine List.forall₂_iff_get.mpr ⟨length.symm, fun index declared given => ?_⟩
  obtain ⟨p, faces, takes⟩ := accepts index _ (List.getElem?_eq_getElem given)
  have same : min index (params.length - 1) = index := by omega
  have parameter : (⟨params[index]⟩ : Parameter) = p := by
    simpa [Signature.facing?, Signature.params, Library.taking, same, declared] using faces
  subst parameter
  exact shaped_of_parameter takes

private theorem taking_two_shapes
    (counted : (Library.taking [[t], [u]]).checkArity name args.length = .ok ())
    (typed : (Library.taking [[t], [u]]).checkTypes name args = .ok ()) :
    ∃ a b, args = [a, b] ∧ Shaped t a ∧ Shaped u b := by
  obtain _ | ⟨⟨t, listed, first⟩, _ | ⟨⟨u, other, second⟩, _ | _⟩⟩ := taking_shapes counted typed
  cases List.mem_singleton.mp listed
  cases List.mem_singleton.mp other
  exact ⟨_, _, rfl, first, second⟩

private theorem taking_many_shapes
    (counted : (Library.takingMany types).checkArity name args.length = .ok ())
    (typed : (Library.takingMany types).checkTypes name args = .ok ()) :
    args ≠ [] ∧ ∀ a ∈ args, ∃ t ∈ types, Shaped t a := by
  have fits := Signature.fits_of_check counted
  constructor
  · rintro rfl
    exact absurd fits (by simp [Signature.Fits, Signature.repeats, Signature.params,
      Library.takingMany])
  · intro a given
    obtain ⟨index, there⟩ := List.mem_iff_getElem?.mp given
    obtain ⟨p, faces, takes⟩ := Signature.accepts_of_check fits typed index a there
    have parameter : (⟨types⟩ : Parameter) = p := by
      simpa [Signature.facing?, Signature.params, Library.takingMany] using faces
    subst parameter
    exact shaped_of_parameter takes

/-! ## Contracts -/

namespace Library
open Value (TotallyPreordered)

/-- The functions that have a contract. -/
def contracted : List String :=
  ["abs", "avg", "ceil", "contains", "ends_with", "floor", "join", "keys", "length", "map", "max",
    "max_by", "merge", "min", "min_by", "not_null", "reverse", "sort", "sort_by", "starts_with",
    "sum", "to_array", "to_number", "to_string", "type", "values"]

/-- The failures of a function that has an expression evaluated on items. -/
def FailsOn (evaluate : Value → Except EvalError Value) (items : List Value) (why : EvalError) :
    Prop :=
  ∃ item ∈ items, evaluate item = .error why

/-- The contract of each function: which arguments it is called with, and what may come out. -/
inductive Keeps : String → List Argument → Except EvalError Value → Prop where
  | number (named : name ∈ ["abs", "ceil", "floor"]) (number : result.isNumber = true) :
      Keeps name [.value v] (.ok result)
  | sum (number : result.isNumber = true) : Keeps "sum" [.value (.arr items)] (.ok result)
  | mean (some_item : items ≠ []) : Keeps "avg" [.value (.arr items)] (.ok (.float x))
  | no_mean : Keeps "avg" [.value (.arr [])] (.ok .null)
  | test (named : name ∈ ["contains", "starts_with", "ends_with"]) (holds : Bool) :
      Keeps name [.value v, .value w] (.ok (.bool holds))
  | join (glue : String) (texts : List String) :
      Keeps "join" [.value (.str glue), .value (.arr (texts.map .str))]
        (.ok (.str (glue.intercalate texts)))
  | text (named : name ∈ ["to_string", "type"]) (text : String) :
      Keeps name [.value v] (.ok (.str text))
  | length (natural : 0 ≤ n.toInt) : Keeps "length" [.value v] (.ok (.int n))
  | keys (entries : Dict Value) :
      Keeps "keys" [.value (.obj entries)] (.ok (.arr (entries.keys.map .str)))
  | values (one_each : results.length = entries.length) :
      Keeps "values" [.value (.obj entries)] (.ok (.arr results))
  | map (each : List.Forall₂ (fun item result => evaluate item = .ok result) items results) :
      Keeps "map" [.expression e evaluate, .value (.arr items)] (.ok (.arr results))
  | map_failure (fails : FailsOn evaluate items why) :
      Keeps "map" [.expression e evaluate, .value (.arr items)] (.error why)
  | extreme (named : name ∈ ["max", "min"]) (member : item ∈ items) (present : item ≠ .null) :
      Keeps name [.value (.arr items)] (.ok item)
  | no_extreme (named : name ∈ ["max", "min"]) : Keeps name [.value (.arr [])] (.ok .null)
  | extreme_by (named : name ∈ ["max_by", "min_by"]) (member : item ∈ items) :
      Keeps name [.value (.arr items), .expression e evaluate] (.ok item)
  | no_extreme_by (named : name ∈ ["max_by", "min_by"]) :
      Keeps name [.value (.arr []), .expression e evaluate] (.ok .null)
  | sort (permuted : results.Perm items) : Keeps "sort" [.value (.arr items)] (.ok (.arr results))
  | sort_by (permuted : results.Perm items) :
      Keeps "sort_by" [.value (.arr items), .expression e evaluate] (.ok (.arr results))
  | sort_given_up (gone : GivesUp items) (unordered : ¬TotallyPreordered items) :
      Keeps "sort" [.value (.arr items)] (.error .disorder)
  | sort_by_given_up (keyedBy : HaveKeys evaluate items found) (gone : GivesUp found)
      (unordered : ¬TotallyPreordered found) :
      Keeps "sort_by" [.value (.arr items), .expression e evaluate] (.error .disorder)
  | key_failure (named : name ∈ ["max_by", "min_by", "sort_by"])
      (fails : FailsOn evaluate items why) :
      Keeps name [.value (.arr items), .expression e evaluate] (.error why)
  | unfit_key (named : name ∈ ["max_by", "min_by", "sort_by"]) (expected : List DataType)
      (actual : String) :
      Keeps name [.value (.arr items), .expression e evaluate]
        (.error (.call (.invalidType name 1 expected actual)))
  | reverse_text (long : t.length = s.length) :
      Keeps "reverse" [.value (.str s)] (.ok (.str t))
  | reverse_items (long : results.length = items.length) :
      Keeps "reverse" [.value (.arr items)] (.ok (.arr results))
  | merge (objects : List (Dict Value)) :
      Keeps "merge" (objects.map fun entries => .value (.obj entries)) (.ok (.obj merged))
  | first_present (front others : List Value) (missing : ∀ w ∈ front, w = .null)
      (present : v ≠ .null) : Keeps "not_null" ((front ++ v :: others).map .value) (.ok v)
  | none_present (given : List Value) (missing : ∀ w ∈ given, w = .null) :
      Keeps "not_null" (given.map .value) (.ok .null)
  | to_array : Keeps "to_array" [.value v] (.ok (.arr items))
  | to_number (number : result.isNumber = true ∨ result = .null) :
      Keeps "to_number" [.value v] (.ok result)

/-- On arguments that pass the checks the function keeps its contract. -/
def Honoured (name : String) (f : Function) : Prop :=
  ∀ args, f.signature.checkArity name args.length = .ok () →
    f.signature.checkTypes name args = .ok () → Keeps name args (f.call args)

private theorem unary_honoured (values : .reference ∉ types)
    (each : ∀ t ∈ types, ∀ v, Shaped t (.value v) → Keeps name [.value v] (.ok (f v))) :
    Honoured name (unary types f) := by
  intro args counted typed
  obtain _ | ⟨⟨t, listed, shaped⟩, _ | _⟩ := taking_shapes counted typed
  obtain ⟨v, rfl⟩ := value_of_shaped shaped (ne_of_mem_of_not_mem listed values)
  exact each t listed v shaped

private theorem unary_one_honoured (value : t ≠ .reference)
    (each : ∀ v, Shaped t (.value v) → Keeps name [.value v] (.ok (f v))) :
    Honoured name (unary [t] f) := by
  refine unary_honoured (by simpa using value.symm) fun u listed v shaped => ?_
  cases List.mem_singleton.mp listed
  exact each v shaped

private theorem binary_honoured (values : .reference ∉ first ++ second)
    (each : ∀ t ∈ first, ∀ u ∈ second, ∀ v w, Shaped t (.value v) → Shaped u (.value w) →
      Keeps name [.value v, .value w] (.ok (f v w))) : Honoured name (binary first second f) := by
  intro args counted typed
  obtain _ | ⟨⟨t, listed, shaped⟩, _ | ⟨⟨u, other, beside⟩, _ | _⟩⟩ := taking_shapes counted typed
  obtain ⟨v, rfl⟩ := value_of_shaped shaped
    (ne_of_mem_of_not_mem (List.mem_append_left second listed) values)
  obtain ⟨w, rfl⟩ := value_of_shaped beside
    (ne_of_mem_of_not_mem (List.mem_append_right first other) values)
  exact each t listed u other v w shaped beside

/-- The one parameter holds an array of numbers, or one of strings. -/
theorem items_honoured {f : List Value → Except EvalError Value}
    (arrays : ∀ t ∈ types, t = .numbers ∨ t = .strings)
    (each : ∀ t ∈ types, ∀ items, Shaped t (.value (.arr items)) →
      Keeps name [.value (.arr items)] (f items)) :
    Honoured name ⟨taking [types], fun args => f (itemsAt args 0)⟩ := by
  intro args counted typed
  obtain _ | ⟨⟨t, listed, shaped⟩, _ | _⟩ := taking_shapes counted typed
  obtain rfl | rfl := arrays t listed
  · cases shaped with
    | numbers all => exact each _ listed _ (.numbers all)
  · cases shaped with
    | strings texts => exact each _ listed _ (.strings texts)

/-! ## Numbers -/

private theorem of_double_number (x : Double) : (Value.ofDouble x).isNumber = true := by
  unfold Value.ofDouble
  split
  · split <;> rfl
  · rfl

theorem abs_number {v : Value} (number : v.isNumber = true) : (abs v).isNumber = true := by
  cases v with
  | int n =>
    unfold abs
    dsimp only
    split <;> rfl
  | float x => rfl
  | _ => cases number

theorem rounded_number {round : Double → Double} {v : Value} (number : v.isNumber = true) :
    (rounded round v).isNumber = true := by
  cases v with
  | float x => exact of_double_number _
  | _ => exact number

private theorem add_number {a b sum : Value} (added : a.add? b = some sum) :
    sum.isNumber = true := by
  unfold Value.add? Value.arithmetic at added
  split at added
  · cases added
    unfold Value.ofDecimal
    split <;> rfl
  · obtain ⟨x, -, rest⟩ := Option.bind_eq_some_iff.mp added
    obtain ⟨y, -, sum⟩ := Option.bind_eq_some_iff.mp rest
    cases sum
    exact of_double_number _

theorem sum_number (items : List Value) : (Value.sum items).isNumber = true := by
  suffices ∀ total : Value, total.isNumber = true → (items.foldl
      (fun total item => (total.add? item).getD total) total).isNumber = true from this _ rfl
  induction items with
  | nil => exact fun _ number => number
  | cons item rest ih =>
    intro total number
    refine ih _ ?_
    dsimp only
    cases added : total.add? item with
    | none => exact number
    | some sum => exact add_number added

private theorem numeral_number {negative : Bool} {n : Numeral}
    (stands : n.toValue? negative = some v) :
    v.isNumber = true := by
  unfold Numeral.toValue? at stands
  dsimp only at stands
  split at stands
  · cases stands
  · split at stands
    · cases stands
      rfl
    · split at stands
      · cases stands
        rfl
      · cases stands

private theorem read_number {cs : List Char} (found : readNumber? cs = some v) :
    v.isNumber = true := by
  obtain ⟨⟨n, rest⟩, -, stands⟩ := Option.bind_eq_some_iff.mp found
  cases rest with
  | nil => exact numeral_number stands
  | cons c more => cases stands

theorem to_number_number (v : Value) : (toNumber v).isNumber = true ∨ toNumber v = .null := by
  cases v with
  | int n => exact .inl rfl
  | float x => exact .inl rfl
  | str s =>
    have read : toNumber (.str s) = (readNumber? s.toList).getD .null := rfl
    cases found : readNumber? s.toList with
    | none =>
      rw [read, found]
      exact .inr rfl
    | some v =>
      rw [read, found]
      exact .inl (read_number found)
  | _ => exact .inr rfl

private theorem number_honoured (named : name ∈ ["abs", "ceil", "floor"])
    (number : ∀ {v : Value}, v.isNumber = true → (f v).isNumber = true) :
    Honoured name (unary [.number] f) := by
  refine unary_one_honoured nofun fun v shaped => ?_
  cases shaped with
  | number given => exact .number named (number given)

private theorem sum_honoured : Honoured "sum" (ofItems [.numbers] Value.sum) :=
  items_honoured (by simp) fun _ _ items _ => .sum (sum_number items)

private theorem avg_honoured : Honoured "avg" (ofItems [.numbers] avg) := by
  refine items_honoured (f := fun items => .ok (avg items)) (by simp) fun t listed items shaped => ?_
  cases items with
  | nil => exact .no_mean
  | cons item rest =>
    have number := sum_number (item :: rest)
    unfold avg
    dsimp only
    cases total : Value.sum (item :: rest) with
    | int n => exact .mean nofun
    | float x => exact .mean nofun
    | _ =>
      rw [total] at number
      cases number

/-! ## Texts, tests and collections -/

private theorem contains_honoured :
    Honoured "contains" (binary [.array, .string] [.any] contains) := by
  refine binary_honoured (by decide) fun t _ u _ v w _ _ => ?_
  unfold contains
  split <;> exact .test (by decide) _

private theorem edge_honoured (named : name ∈ ["contains", "starts_with", "ends_with"])
    (tests : ∀ s piece, ∃ holds, f (.str s) (.str piece) = .bool holds) :
    Honoured name (binary [.string] [.string] f) := by
  refine binary_honoured (by decide) fun t listed u other v w first second => ?_
  cases List.mem_singleton.mp listed
  cases List.mem_singleton.mp other
  cases first
  cases second
  rename_i s piece
  obtain ⟨holds, same⟩ := tests s piece
  rw [same]
  exact .test named holds

private theorem join_honoured : Honoured "join" ⟨taking [[.string], [.strings]], fun args =>
    .ok (join (valueAt args 0) (itemsAt args 1))⟩ := by
  intro args counted typed
  obtain ⟨a, b, rfl, first, second⟩ := taking_two_shapes counted typed
  cases first with
  | @string glue =>
    cases second with
    | strings texts =>
      have kept : (texts.map Value.str).filterMap Value.toStr? = texts := by
        simp [List.filterMap_map, Function.comp_def, Value.toStr?]
      have joined : join (.str glue) (texts.map .str) = .str (glue.intercalate texts) := by
        rw [join, kept]
        rfl
      change Keeps "join" _ (.ok (join (.str glue) (texts.map .str)))
      rw [joined]
      exact .join glue texts

private theorem text_honoured (named : name ∈ ["to_string", "type"])
    (texts : ∀ v, ∃ text, f v = .str text) : Honoured name (unary [.any] f) := by
  refine unary_honoured (by decide) fun _ _ v _ => ?_
  obtain ⟨text, same⟩ := texts v
  rw [same]
  exact .text named text

private theorem clamp_natural (n : Nat) : 0 ≤ (clampInt64 n).toInt := by
  rw [clampInt64, Int64.toInt_ofInt_of_le (by omega) (by omega)]
  omega

private theorem length_honoured : Honoured "length" (unary [.string, .array, .object] length) := by
  refine unary_honoured (by decide) fun t listed v shaped => ?_
  simp only [List.mem_cons, List.not_mem_nil, or_false] at listed
  obtain rfl | rfl | rfl := listed
  all_goals
    cases shaped
    exact .length (clamp_natural _)

private theorem keys_honoured : Honoured "keys" (unary [.object] keys) := by
  refine unary_one_honoured nofun fun v shaped => ?_
  cases shaped with
  | @object entries =>
    have kept := Keeps.keys entries
    rwa [Dict.keys, List.map_map] at kept

private theorem values_honoured : Honoured "values" (unary [.object] values) := by
  refine unary_one_honoured nofun fun v shaped => ?_
  cases shaped
  exact .values (List.length_map _)

private theorem reverse_honoured : Honoured "reverse" (unary [.array, .string] reverse) := by
  refine unary_honoured (by decide) fun t listed v shaped => ?_
  simp only [List.mem_cons, List.not_mem_nil, or_false] at listed
  obtain rfl | rfl := listed
  · cases shaped
    exact .reverse_items (List.length_reverse)
  · cases shaped
    exact .reverse_text (by simp [← String.length_toList])

private theorem to_array_honoured : Honoured "to_array" (unary [.any] toArray) := by
  refine unary_honoured (by decide) fun _ _ v _ => ?_
  cases v <;> exact .to_array

private theorem to_number_honoured : Honoured "to_number" (unary [.any] toNumber) :=
  unary_honoured (by decide) fun _ _ v _ => .to_number (to_number_number v)

private theorem values_given {types : List DataType} (values : .reference ∉ types)
    {args : List Argument}
    (given : ∀ a ∈ args, ∃ t ∈ types, Shaped t a) : ∃ vs : List Value, args = vs.map .value := by
  refine mapped_of_each fun a member => ?_
  obtain ⟨t, listed, shaped⟩ := given a member
  exact value_of_shaped shaped (ne_of_mem_of_not_mem listed values)

private theorem is_null_iff {v : Value} : v.isNull = true ↔ v = .null := by
  cases v <;> simp [Value.isNull]

private theorem not_null_honoured : Honoured "not_null" ⟨takingMany [.any], fun args =>
    .ok (notNull args)⟩ := by
  intro args counted typed
  obtain ⟨-, given⟩ := taking_many_shapes counted typed
  obtain ⟨values, rfl⟩ := values_given (by decide) given
  have seen : (values.map ArgumentIn.value : List Argument).map ArgumentIn.toValue = values := by
    simp [Function.comp_def, ArgumentIn.toValue]
  dsimp only
  rw [notNull, seen]
  cases found : values.find? (!·.isNull) with
  | none =>
    refine .none_present values fun w member => ?_
    simpa [is_null_iff] using List.find?_eq_none.mp found w member
  | some v =>
    obtain ⟨present, front, others, rfl, missing⟩ := List.find?_eq_some_iff_append.mp found
    refine .first_present front others (fun w member => ?_) ?_
    · simpa [is_null_iff] using missing w member
    · rintro rfl
      cases present

private theorem objects_given {args : List Argument}
    (given : ∀ a ∈ args, ∃ t ∈ [DataType.object], Shaped t a) :
    ∃ objects : List (Dict Value), args = objects.map fun entries => .value (.obj entries) := by
  refine mapped_of_each fun a member => ?_
  obtain ⟨t, listed, shaped⟩ := given a member
  cases List.mem_singleton.mp listed
  cases shaped with
  | @object entries => exact ⟨entries, rfl⟩

private theorem merge_honoured :
    Honoured "merge" ⟨takingMany [.object], fun args => .ok (merge args)⟩ := by
  intro args counted typed
  obtain ⟨-, given⟩ := taking_many_shapes counted typed
  obtain ⟨objects, rfl⟩ := objects_given given
  exact .merge objects

/-! ## The greatest, the least and the order -/

section

variable {α : Type}

/-- A fold that keeps one of two elements ends with an element of the list. -/
theorem fold_member {pick : α → α → α} (either : ∀ a b, pick a b = a ∨ pick a b = b) (x : α)
    (rest : List α) : rest.foldl pick x ∈ x :: rest := by
  induction rest generalizing x with
  | nil => exact List.mem_singleton_self x
  | cons y rest ih =>
    rw [List.foldl_cons]
    obtain same | same := either x y <;> rw [same]
    · exact List.mem_cons.mpr ((List.mem_cons.mp (ih x)).imp_right (List.mem_cons_of_mem y))
    · exact List.mem_cons_of_mem x (ih y)

/-- A choice among items ends with one of them, if there are any. -/
def Chooses (choose : List α → Option α) : Prop :=
  choose [] = none ∧ ∀ items, items ≠ [] → ∃ item ∈ items, choose items = some item

theorem last_greatest_chooses (less : α → α → Bool) : Chooses (lastGreatest? less) := by
  refine ⟨rfl, fun items some_item => ?_⟩
  cases items with
  | nil => exact absurd rfl some_item
  | cons x rest =>
    refine ⟨_, fold_member (fun best y => ?_) x rest, rfl⟩
    split
    · exact .inl rfl
    · exact .inr rfl

theorem first_least_chooses (less : α → α → Bool) : Chooses (firstLeast? less) := by
  refine ⟨rfl, fun items some_item => ?_⟩
  cases items with
  | nil => exact absurd rfl some_item
  | cons x rest =>
    refine ⟨_, fold_member (fun best y => ?_) x rest, rfl⟩
    split
    · exact .inr rfl
    · exact .inl rfl

end

/-- Items of which one is chosen are all numbers, or all strings. -/
theorem shaped_present (arrays : t = .numbers ∨ t = .strings)
    (shaped : Shaped t (.value (.arr items))) : ∀ item ∈ items, item ≠ .null := by
  rintro item member rfl
  obtain rfl | rfl := arrays
  · cases shaped with
    | numbers all => cases all _ member
  · cases shaped with
    | strings texts =>
      obtain ⟨text, -, same⟩ := List.mem_map.mp member
      cases same

private theorem extreme_honoured (named : name ∈ ["max", "min"]) (chooses : Chooses choose) :
    Honoured name (ofItems [.numbers, .strings] fun items => (choose items).getD .null) := by
  refine items_honoured (f := fun items => .ok ((choose items).getD .null)) (by simp)
    fun t listed items shaped => ?_
  cases items with
  | nil =>
    rw [chooses.1]
    exact .no_extreme named
  | cons first rest =>
    obtain ⟨item, member, chosen⟩ := chooses.2 (first :: rest) (List.cons_ne_nil first rest)
    rw [chosen]
    exact .extreme named member (shaped_present (by simpa using listed) shaped item member)

private theorem sort_honoured :
    Honoured "sort" ⟨taking [[.numbers, .strings]], fun args => sort (itemsAt args 0)⟩ := by
  refine items_honoured (by simp) fun _ _ items _ => ?_
  cases made : sortStable? Value.less items with
  | none =>
    rw [sort_gives_up made]
    exact .sort_given_up made fun ordered => preordered_going ordered made
  | some sorted =>
    rw [sort, ascending, made]
    exact .sort (sort_stable_perm made)

/-! ## Functions that evaluate an expression -/

theorem map_ends (evaluate : Value → Except EvalError Value) (items : List Value) :
    EndsAs (FailsOn evaluate items)
      (List.Forall₂ (fun item result => evaluate item = .ok result) items)
      (items.mapM evaluate) := by
  induction items with
  | nil => exact .nil
  | cons item rest ih =>
    rw [List.mapM_cons]
    cases first : evaluate item with
    | error why => exact ⟨item, List.mem_cons_self, first⟩
    | ok result =>
      cases others : rest.mapM evaluate with
      | error why =>
        rw [others] at ih
        obtain ⟨bad, member, fails⟩ := ih
        exact ⟨bad, List.mem_cons_of_mem item member, fails⟩
      | ok results =>
        rw [others] at ih
        exact .cons first ih

theorem keyed_ends (name : String) (evaluate : Value → Except EvalError Value)
    (items : List Value) :
    ∀ required, EndsAs
      (fun why => FailsOn evaluate items why ∨
        ∃ expected actual, why = .call (.invalidType name 1 expected actual))
      (fun pairs => pairs.map Prod.snd = items ∧ HaveKeys evaluate items (pairs.map Prod.fst))
      (keyed name evaluate required items) := by
  induction items with
  | nil => exact fun _ => ⟨rfl, .nil⟩
  | cons item rest ih =>
    intro required
    unfold keyed
    cases first : evaluate item with
    | error why => exact .inl ⟨item, List.mem_cons_self, first⟩
    | ok key =>
      dsimp only [bind, Except.bind]
      split
      · rename_i t kind
        split
        · have others := ih (some t)
          cases behind : keyed name evaluate (some t) rest with
          | error why =>
            rw [behind] at others
            refine others.imp_left ?_
            rintro ⟨bad, member, fails⟩
            exact ⟨bad, List.mem_cons_of_mem item member, fails⟩
          | ok pairs =>
            rw [behind] at others
            exact ⟨congrArg (item :: ·) others.1, .cons first others.2⟩
        · exact .inr ⟨_, _, rfl⟩
      · exact .inr ⟨_, _, rfl⟩

private theorem map_honoured : Honoured "map" ⟨taking [[.reference], [.array]], map⟩ := by
  intro args counted typed
  obtain ⟨a, b, rfl, first, second⟩ := taking_two_shapes counted typed
  cases first with
  | @reference e evaluate =>
    cases second with
    | @array items =>
      have ends := map_ends evaluate items
      change Keeps "map" _ (do return .arr (← items.mapM evaluate))
      cases outcome : items.mapM evaluate with
      | error why =>
        rw [outcome] at ends
        exact .map_failure ends
      | ok results =>
        rw [outcome] at ends
        exact .map ends

/-- A function that works on keyed items fails with its keys, or finishes on the items with the keys
that they have. -/
theorem keyed_honoured (named : name ∈ ["max_by", "min_by", "sort_by"])
    (finish : List (Value × Value) → Except EvalError Value)
    (finishes : ∀ (e : Expr) evaluate (pairs : List (Value × Value)),
      HaveKeys evaluate (pairs.map Prod.snd) (pairs.map Prod.fst) →
        Keeps name [.value (.arr (pairs.map Prod.snd)), .expression e evaluate] (finish pairs)) :
    Honoured name
      ⟨taking [[.array], [.reference]], fun args => keyedItems name args >>= finish⟩ := by
  intro args counted typed
  obtain ⟨a, b, rfl, first, second⟩ := taking_two_shapes counted typed
  cases first with
  | @array items =>
    cases second with
    | @reference e evaluate =>
      have ends := keyed_ends name evaluate items none
      change Keeps name _ (keyed name evaluate none items >>= finish)
      cases outcome : keyed name evaluate none items with
      | error why =>
        rw [outcome] at ends
        obtain fails | ⟨expected, actual, rfl⟩ := ends
        · exact .key_failure named fails
        · exact .unfit_key named expected actual
      | ok pairs =>
        rw [outcome] at ends
        obtain ⟨rfl, keyedBy⟩ := ends
        exact finishes e evaluate pairs keyedBy

private theorem extreme_by_honoured (named : name ∈ ["max_by", "min_by"])
    (chooses : Chooses choose) :
    Honoured name ⟨taking [[.array], [.reference]], fun args => do
      return ((choose (← keyedItems name args)).map Prod.snd).getD .null⟩ := by
  refine keyed_honoured (List.mem_append_left ["sort_by"] named) _ fun e evaluate pairs _ => ?_
  cases pairs with
  | nil =>
    rw [chooses.1]
    exact .no_extreme_by named
  | cons first rest =>
    obtain ⟨pair, member, chosen⟩ := chooses.2 (first :: rest) (List.cons_ne_nil first rest)
    rw [chosen]
    exact .extreme_by named (List.mem_map_of_mem member)

private theorem sort_by_honoured :
    Honoured "sort_by" ⟨taking [[.array], [.reference]], sortBy⟩ := by
  refine keyed_honoured (by decide) sortedItems fun _ _ pairs keyedBy => ?_
  cases made : sortStable? lessByKey pairs with
  | none =>
    have gone : GivesUp (pairs.map Prod.fst) := by
      rw [← pairs_give_up keyedBy.length_eq.symm, ← List.zip_of_prod rfl rfl]
      exact made
    rw [sortedItems, ascending, made]
    exact .sort_by_given_up keyedBy gone fun ordered => preordered_going ordered gone
  | some sorted =>
    rw [sortedItems, ascending, made]
    exact .sort_by ((sort_stable_perm made).map Prod.snd)

private theorem functions_honoured : ∀ entry ∈ functions, Honoured entry.1 entry.2 := by
  simp only [functions, List.forall_mem_cons]
  exact ⟨number_honoured (by decide) abs_number, avg_honoured,
    number_honoured (by decide) rounded_number, contains_honoured,
    edge_honoured (by decide) fun _ _ => ⟨_, rfl⟩, number_honoured (by decide) rounded_number,
    join_honoured, keys_honoured, length_honoured, map_honoured,
    extreme_honoured (by decide) (last_greatest_chooses _),
    extreme_by_honoured (by decide) (last_greatest_chooses _), merge_honoured,
    extreme_honoured (by decide) (first_least_chooses _),
    extreme_by_honoured (by decide) (first_least_chooses _), not_null_honoured, reverse_honoured,
    sort_honoured, sort_by_honoured, edge_honoured (by decide) fun _ _ => ⟨_, rfl⟩, sum_honoured,
    to_array_honoured, to_number_honoured,
    text_honoured (by decide) fun v => by cases v <;> exact ⟨_, rfl⟩,
    text_honoured (by decide) fun v => ⟨_, rfl⟩, values_honoured, List.forall_mem_nil _⟩

private theorem contracted_listed : functions.map Prod.fst = contracted :=
  rfl

private theorem listed_registered (listed : (name, f) ∈ functions) :
    Registry.builtins.get? name = some f := by
  have distinct : Dict.Distinct functions := by
    rw [Dict.Distinct, Dict.keys, contracted_listed]
    decide
  change Dict.find? name (Dict.ofEntries functions) = some f
  rw [Dict.of_entries_distinct distinct]
  exact (Dict.find_eq_iff distinct).mpr listed

/-- Every function of the library is registered, and on all arguments that pass the checks of its
signature it keeps its contract. -/
theorem contracts_kept (named : name ∈ contracted) :
    ∃ f, Registry.builtins.get? name = some f ∧
      ∀ args, f.signature.checkArity name args.length = .ok () →
        f.signature.checkTypes name args = .ok () → Keeps name args (f.call args) := by
  rw [← contracted_listed] at named
  obtain ⟨⟨name, f⟩, listed, rfl⟩ := List.mem_map.mp named
  exact ⟨f, listed_registered listed, functions_honoured _ listed⟩

/-- A key of another type than the first one is an error, although the arguments pass. -/
theorem contracts_kept_unfit_key :
    let args : List Argument := [.value (.arr [.int 2, .str "a"]), .expression .current .ok]
    "sort_by" ∈ contracted ∧ ∃ f, Registry.builtins.get? "sort_by" = some f ∧
      f.signature.checkArity "sort_by" 2 = .ok () ∧
      f.signature.checkTypes "sort_by" args = .ok () ∧
      f.call args = .error (.call (.invalidType "sort_by" 1 [.number] "string")) ∧
      Keeps "sort_by" args (f.call args) := by
  intro args
  have named : "sort_by" ∈ contracted := by decide
  refine ⟨named, ?_⟩
  obtain ⟨f, known, keeps⟩ := contracts_kept named
  cases (show some _ = some f from known)
  exact ⟨_, known, rfl, rfl, rfl, keeps args rfl rfl⟩

/-- Numbers that pass the checks and have no sorted array. -/
theorem contract_given_up :
    let args : List Argument := [.value (.arr contrary)]
    ∃ f, Registry.builtins.get? "sort" = some f ∧ f.signature.checkArity "sort" 1 = .ok () ∧
      f.signature.checkTypes "sort" args = .ok () ∧ f.call args = .error .disorder := by
  intro args
  have given : itemsAt args 0 = contrary := rfl
  refine ⟨_, rfl, rfl, rfl, ?_⟩
  dsimp only
  rw [given]
  exact sort_gives_up contrary_gives_up

end Library

end JsonQuery
