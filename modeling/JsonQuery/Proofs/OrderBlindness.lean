import Mathlib
import JsonQuery.Query
import JsonQuery.Proofs.Conduct
import JsonQuery.Proofs.KeyOrder
import JsonQuery.Proofs.Nodes

/-! Whether objects keep their keys in the order of insertion or sorted is not observable without an
operation that lists the entries of an object. Values that differ in the order of keys only are treated
alike by the nodes of an expression and by the functions; only the values of an object, listed, are not
related. -/
namespace JsonQuery

/-- The same failure, or values that agree. -/
inductive OutcomesAgree {α β : Type} (agree : α → β → Prop) :
    Except EvalError α → Except EvalError β → Prop where
  | value (same : agree a b) : OutcomesAgree agree (.ok a) (.ok b)
  | failure : OutcomesAgree agree (.error e) (.error e)

section

variable {α β γ δ : Type} {agree : α → β → Prop} {join : γ → δ → Prop}

private theorem agree_then {outcome : Except EvalError α} {other : Except EvalError β}
    {f : α → Except EvalError γ} {g : β → Except EvalError δ}
    (first : OutcomesAgree agree outcome other)
    (next : ∀ a b, agree a b → OutcomesAgree join (f a) (g b)) :
    OutcomesAgree join (outcome >>= f) (other >>= g) := by
  cases first with
  | value same => exact next _ _ same
  | failure => exact .failure

/-- Agreement goes through sequences. -/
def OutcomesAgree.simulation : Simulation (Except EvalError) (Except EvalError) where
  holds := OutcomesAgree
  value := .value
  next := agree_then

/-- What no value enters has one outcome. -/
theorem agree_same (outcome : Except EvalError α) : OutcomesAgree (· = ·) outcome outcome := by
  cases outcome with
  | ok a => exact .value rfl
  | error e => exact .failure

/-- Related evaluations have agreeing outcomes on alike values. -/
def EvaluationsAgree (f g : Value → Except EvalError Value) : Prop :=
  ∀ v w, v.Alike w → OutcomesAgree Value.Alike (f v) (g w)

section

variable {f g : Value → Except EvalError Value} (each : EvaluationsAgree f g)
include each

private theorem agree_map (items : List.Forall₂ Value.Alike as bs) :
    OutcomesAgree (List.Forall₂ Value.Alike) (as.mapM f) (bs.mapM g) := by
  induction items with
  | nil => exact .value .nil
  | cons first _ ih =>
    rw [List.mapM_cons, List.mapM_cons]
    exact agree_then (each _ _ first) fun v w same =>
      agree_then ih fun vs ws others => .value (.cons same others)

/-- Items with their keys, both alike. -/
def KeyedAlike (a b : Value × Value) : Prop :=
  a.1.Alike b.1 ∧ a.2.Alike b.2

private theorem agree_keyed (function : String) (items : List.Forall₂ Value.Alike as bs) :
    ∀ required, OutcomesAgree (List.Forall₂ KeyedAlike) (Library.keyed function f required as)
      (Library.keyed function g required bs) := by
  induction items with
  | nil => exact fun _ => .value .nil
  | cons first _ ih =>
    intro required
    refine agree_then (each _ _ first) fun key other same => ?_
    have kind : Library.keyType? key = Library.keyType? other := by
      cases same <;> rfl
    dsimp only
    rw [kind, alike_typeName same]
    split
    · split
      · exact agree_then (ih _) fun _ _ others => .value (.cons ⟨same, first⟩ others)
      · exact .failure
    · exact .failure

end

/-- Arguments that agree: alike values, or expressions whose evaluations do. -/
abbrev ArgumentsAgree : Argument → Argument → Prop :=
  ArgumentsMatch Value.Alike (OutcomesAgree Value.Alike)

/-- A test of each item that does not see the order of keys. -/
theorem any_alike {test other : Value → Bool} (sees : ∀ v w, v.Alike w → test v = other w)
    (items : List.Forall₂ Value.Alike as bs) : as.any test = bs.any other := by
  induction items with
  | nil => rfl
  | cons first _ ih => rw [List.any_cons, List.any_cons, sees _ _ first, ih]

private theorem all_alike {test : Value → Bool} (sees : ∀ v w, v.Alike w → test v = test w)
    (items : List.Forall₂ Value.Alike as bs) : as.all test = bs.all test := by
  induction items with
  | nil => rfl
  | cons first _ ih => rw [List.all_cons, List.all_cons, sees _ _ first, ih]

private theorem agree_toValue {a b : Argument} (agree : ArgumentsAgree a b) :
    a.toValue.Alike b.toValue := by
  cases agree with
  | value same => exact same
  | expression each => exact .null

private theorem alike_acceptsValue {v w : Value} (alike : v.Alike w) (t : DataType) :
    t.acceptsValue v = t.acceptsValue w := by
  cases t with
  | number => exact alike_isNumber alike
  | numbers =>
    cases alike with
    | arr items => exact all_alike (fun _ _ => alike_isNumber) items
    | _ => rfl
  | strings =>
    cases alike with
    | arr items => exact all_alike (fun _ _ => alike_isString) items
    | _ => rfl
  | _ => cases alike <;> rfl

/-- Nodes do not see the order of keys, and may build their objects in either. -/
theorem alike_congruence : Congruence Value.Alike .insertion .sorted where
  null := .null
  bool _ := .bool
  arr := .arr
  isNull := alike_isNull
  isTruthy := alike_isTruthy
  field alike name := by
    cases alike with
    | obj keys values order => exact alike_field (entries_alike_iff.mpr ⟨keys, values⟩) order name
    | _ => exact .null
  items alike := by
    cases alike with
    | arr items => exact .some items
    | _ => exact .none
  compare op first second := by
    rw [alike_compareValues op first second]
    exact alike_refl _
  build := build_alike
  typeName := alike_typeName
  accepts := alike_acceptsValue

section

variable {args others : List Argument} (same : List.Forall₂ ArgumentsAgree args others)
include same

private theorem agree_values :
    List.Forall₂ Value.Alike (args.map ArgumentIn.toValue) (others.map ArgumentIn.toValue) :=
  List.rel_map (fun _ _ agree => agree_toValue agree) same

private theorem agree_valueAt (index : Nat) :
    (Library.valueAt args index).Alike (Library.valueAt others index) := by
  rw [Library.valueAt_nth, Library.valueAt_nth]
  exact nth_related .null (agree_values same) index

private theorem agree_itemsAt (index : Nat) :
    List.Forall₂ Value.Alike (Library.itemsAt args index) (Library.itemsAt others index) := by
  unfold Library.itemsAt
  have alike := agree_valueAt same index
  generalize Library.valueAt args index = v at alike ⊢
  generalize Library.valueAt others index = w at alike ⊢
  cases alike with
  | arr items => exact items
  | _ => exact .nil

private theorem agree_expressionAt (function : String) (index : Nat) :
    OutcomesAgree EvaluationsAgree (Library.expressionAt function args index)
      (Library.expressionAt function others index) := by
  have argument := related_at same index
  unfold Library.expressionAt
  rw [alike_typeName (agree_valueAt same index)]
  generalize args[index]? = a at argument ⊢
  generalize others[index]? = b at argument ⊢
  cases argument with
  | none => exact .failure
  | some agree =>
    cases agree with
    | value => exact .failure
    | expression each => exact .value each

end

end

/-- The function gives agreeing outcomes for arguments that agree. -/
def Function.Blind (f : Function) : Prop :=
  ∀ args others, List.Forall₂ ArgumentsAgree args others →
    OutcomesAgree Value.Alike (f.call args) (f.call others)

namespace Library

private theorem unary_blind (types : List DataType) {f : Value → Value}
    (keeps : ∀ v w, v.Alike w → (f v).Alike (f w)) : (unary types f).Blind :=
  fun _ _ same => .value (keeps _ _ (agree_valueAt same 0))

private theorem binary_blind (first second : List DataType) {f : Value → Value → Value}
    (keeps : ∀ a b, a.Alike b → ∀ c d, c.Alike d → (f a c).Alike (f b d)) :
    (binary first second f).Blind :=
  fun _ _ same => .value (keeps _ _ (agree_valueAt same 0) _ _ (agree_valueAt same 1))

private theorem items_blind (types : List DataType) {f : List Value → Value}
    (keeps : ∀ as bs, List.Forall₂ Value.Alike as bs → (f as).Alike (f bs)) :
    (ofItems types f).Blind :=
  fun _ _ same => .value (keeps _ _ (agree_itemsAt same 0))

private theorem abs_alike (v w : Value) (alike : v.Alike w) : (abs v).Alike (abs w) := by
  cases alike <;> exact alike_refl _

private theorem rounded_alike {round : Double → Double} (v w : Value) (alike : v.Alike w) :
    (rounded round v).Alike (rounded round w) := by
  cases alike with
  | arr items => exact .arr items
  | obj keys values order => exact .obj keys values order
  | _ => exact alike_refl _

private theorem add_alike (first : Value.Alike a b) (second : Value.Alike c d) :
    a.add? c = b.add? d := by
  unfold Value.add? Value.arithmetic
  rw [alike_toDecimal first, alike_toDecimal second, alike_toDouble first, alike_toDouble second]

private theorem sum_alike (items : List.Forall₂ Value.Alike as bs) :
    Value.sum as = Value.sum bs := by
  unfold Value.sum
  generalize Value.int 0 = total
  induction items generalizing total with
  | nil => rfl
  | cons first _ ih =>
    rw [List.foldl_cons, List.foldl_cons, add_alike (alike_refl total) first, ih]

private theorem avg_alike (as bs : List Value) (items : List.Forall₂ Value.Alike as bs) :
    (avg as).Alike (avg bs) := by
  have total := sum_alike items
  cases items with
  | nil => exact .null
  | cons first rest =>
    unfold avg
    rw [total, List.length_cons, List.length_cons, rest.length_eq]
    exact alike_refl _

private theorem contains_alike (a b : Value) (first : a.Alike b) (c d : Value)
    (second : c.Alike d) :
    (contains a c).Alike (contains b d) := by
  cases first with
  | arr items =>
    have found := any_alike (fun _ _ same => alike_deepEq _ _ _ _ same second) items
    rw [contains, contains, found]
    exact .bool
  | str => cases second <;> exact alike_refl _
  | _ => exact alike_refl _

private theorem starts_with_alike (a b : Value) (first : a.Alike b) (c d : Value)
    (second : c.Alike d) :
    (startsWith a c).Alike (startsWith b d) := by
  cases first <;> cases second <;> exact alike_refl _

private theorem ends_with_alike (a b : Value) (first : a.Alike b) (c d : Value)
    (second : c.Alike d) :
    (endsWith a c).Alike (endsWith b d) := by
  cases first <;> cases second <;> exact alike_refl _

private theorem join_alike (glue : Value.Alike v w) (items : List.Forall₂ Value.Alike as bs) :
    join v as = join w bs := by
  have texts : as.filterMap Value.toStr? = bs.filterMap Value.toStr? := by
    induction items with
    | nil => rfl
    | cons first _ ih => rw [List.filterMap_cons, List.filterMap_cons, alike_toStr first, ih]
  rw [join, join, texts, alike_toStr glue]

private theorem join_blind (s : Signature) :
    (Function.mk s fun args => .ok (join (valueAt args 0) (itemsAt args 1))).Blind := by
  intro args others same
  have text := join_alike (agree_valueAt same 0) (agree_itemsAt same 1)
  exact .value (text ▸ alike_refl _)

private theorem length_alike (v w : Value) (alike : v.Alike w) : (length v).Alike (length w) := by
  cases alike with
  | arr items =>
    rw [length, length, items.length_eq]
    exact .int
  | obj keys values order =>
    rw [length, length, alike_length (entries_alike_iff.mpr ⟨keys, values⟩) order]
    exact .int
  | _ => exact alike_refl _

private theorem option_alike {a b : Option Value} (agree : Option.Rel Value.Alike a b) :
    (a.getD .null).Alike (b.getD .null) := by
  cases agree with
  | none => exact .null
  | some same => exact same

private theorem compares_alike : ComparesAlike Value.Alike Value.less Value.less :=
  fun _ _ first _ _ second => alike_less first second

private theorem keys_compare_alike : ComparesAlike KeyedAlike lessByKey lessByKey :=
  fun _ _ first _ _ second => alike_less first.1 second.1

private theorem max_alike (as bs : List Value) (items : List.Forall₂ Value.Alike as bs) :
    (max as).Alike (max bs) :=
  option_alike (last_greatest_related compares_alike items)

private theorem min_alike (as bs : List Value) (items : List.Forall₂ Value.Alike as bs) :
    (min as).Alike (min bs) :=
  option_alike (first_least_related compares_alike items)

/-- A sort of items that compare alike is abandoned in both or in neither. -/
theorem ascending_agree {less : α → α → Bool} {otherLess : β → β → Bool}
    (alike : ComparesAlike agree less otherLess) (items : List.Forall₂ agree as bs) :
    OutcomesAgree (List.Forall₂ agree) (ascending less as) (ascending otherLess bs) := by
  have sorted := sort_stable_related alike items
  unfold ascending
  generalize sortStable? less as = left at sorted ⊢
  generalize sortStable? otherLess bs = right at sorted ⊢
  cases sorted with
  | none => exact .failure
  | some items => exact .value items

private theorem sort_blind (s : Signature) :
    (Function.mk s fun args => sort (itemsAt args 0)).Blind :=
  fun _ _ same => agree_then (ascending_agree compares_alike (agree_itemsAt same 0))
    fun _ _ items => .value (.arr items)

private theorem map_blind (s : Signature) : (Function.mk s map).Blind := by
  intro args others same
  refine agree_then (agree_expressionAt same "map" 0) fun f g each => ?_
  exact agree_then (agree_map each (agree_itemsAt same 1)) fun _ _ results => .value (.arr results)

private theorem keyed_blind (s : Signature) (function : String)
    {finish : List (Value × Value) → Except EvalError Value}
    (keeps : ∀ pairs others, List.Forall₂ KeyedAlike pairs others →
      OutcomesAgree Value.Alike (finish pairs) (finish others)) :
    (Function.mk s fun args => keyedItems function args >>= finish).Blind := by
  intro args others same
  refine agree_then ?_ keeps
  refine agree_then (agree_expressionAt same function 1) fun f g each => ?_
  exact agree_keyed each function (agree_itemsAt same 0) none

/-- The item of a pair that is chosen for its key. -/
theorem item_alike {a b : Option (Value × Value)} (agree : Option.Rel KeyedAlike a b) :
    ((a.map Prod.snd).getD .null).Alike ((b.map Prod.snd).getD .null) := by
  cases agree with
  | none => exact .null
  | some same => exact same.2

private theorem max_by_blind (s : Signature) : (Function.mk s maxBy).Blind :=
  keyed_blind s "max_by" fun _ _ pairs =>
    .value (item_alike (last_greatest_related keys_compare_alike pairs))

private theorem min_by_blind (s : Signature) : (Function.mk s minBy).Blind :=
  keyed_blind s "min_by" fun _ _ pairs =>
    .value (item_alike (first_least_related keys_compare_alike pairs))

private theorem sort_by_blind (s : Signature) : (Function.mk s sortBy).Blind :=
  keyed_blind s "sort_by" fun _ _ pairs =>
    agree_then (ascending_agree keys_compare_alike pairs) fun _ _ sorted =>
      .value (.arr (List.rel_map (fun _ _ same => same.2) sorted))

/-- Objects under construction that differ in the order of their keys only. -/
def DictsAlike (d other : Dict Value) : Prop :=
  ∃ mid, EntriesAlike d mid ∧ Reordered mid other ∧ mid.Distinct

private theorem insert_entries_alike (base : DictsAlike d other) (value : Value.Alike v w) :
    DictsAlike (d.insertAll (v.toEntries?.getD [])) (other.insertAll (w.toEntries?.getD [])) := by
  obtain ⟨mid, built, order, distinct⟩ := base
  cases value with
  | @obj as bs cs keys values inserted =>
    have entries : EntriesAlike as bs := entries_alike_iff.mpr ⟨keys, values⟩
    exact ⟨mid.insertAll bs, insert_all_alike entries _ _ built,
      Dict.insert_all_reordered distinct order inserted, Dict.distinct_insert_all _ _ distinct⟩
  | _ => exact ⟨mid, built, order, distinct⟩

private theorem merge_blind (s : Signature) :
    (Function.mk s fun args => .ok (merge args)).Blind := by
  intro args others same
  have merged : ∀ d other, DictsAlike d other →
      DictsAlike (args.foldl (fun d a => Dict.insertAll d (a.toValue.toEntries?.getD [])) d)
        (others.foldl (fun d a => Dict.insertAll d (a.toValue.toEntries?.getD [])) other) := by
    induction same with
    | nil => exact fun _ _ base => base
    | cons first _ ih => exact fun _ _ base => ih _ _ (insert_entries_alike base (agree_toValue first))
  obtain ⟨mid, built, order, -⟩ := merged [] [] ⟨[], .nil, .inl rfl, List.nodup_nil⟩
  exact .value (alike_obj built order)

private theorem first_present_alike (items : List.Forall₂ Value.Alike as bs) :
    Option.Rel Value.Alike (as.find? (!·.isNull)) (bs.find? (!·.isNull)) := by
  induction items with
  | nil => exact .none
  | cons first _ ih =>
    rw [List.find?_cons, List.find?_cons, alike_isNull first]
    split
    · exact .some first
    · exact ih

private theorem not_null_blind (s : Signature) :
    (Function.mk s fun args => .ok (notNull args)).Blind :=
  fun _ _ same => .value (option_alike (first_present_alike (agree_values same)))

private theorem reverse_alike (v w : Value) (alike : v.Alike w) : (reverse v).Alike
    (reverse w) := by
  cases alike with
  | arr items => exact .arr (List.rel_reverse items)
  | _ => exact alike_refl _

private theorem to_array_alike (v w : Value) (alike : v.Alike w) : (toArray v).Alike
    (toArray w) := by
  cases alike with
  | arr items => exact .arr items
  | obj keys values order => exact .arr (.cons (.obj keys values order) .nil)
  | _ => exact alike_refl _

private theorem to_number_alike (v w : Value) (alike : v.Alike w) : (toNumber v).Alike
    (toNumber w) := by
  cases alike <;> exact alike_refl _

private theorem type_alike (v w : Value) (alike : v.Alike w) :
    (Value.str v.typeName).Alike (.str w.typeName) := by
  rw [alike_typeName alike]
  exact .str

/-- The functions in whose results the order of keys shows. -/
def listing : List String :=
  ["keys", "values", "to_string"]

private theorem sum_kept (as bs : List Value) (items : List.Forall₂ Value.Alike as bs) :
    (Value.sum as).Alike (Value.sum bs) :=
  sum_alike items ▸ alike_refl _

private theorem functions_blind : ∀ entry ∈ functions, entry.1 ∉ listing → entry.2.Blind := by
  simp [functions, listing, ceil, floor, unary_blind _ abs_alike, items_blind _ avg_alike,
    unary_blind _ rounded_alike, binary_blind _ _ contains_alike,
    binary_blind _ _ ends_with_alike, join_blind, unary_blind _ length_alike, map_blind,
    items_blind _ max_alike, max_by_blind, merge_blind, items_blind _ min_alike, min_by_blind,
    not_null_blind, unary_blind _ reverse_alike, sort_blind, sort_by_blind,
    binary_blind _ _ starts_with_alike, items_blind _ sum_kept, unary_blind _ to_array_alike,
    unary_blind _ to_number_alike, unary_blind _ type_alike]

end Library

/-- The order of keys shows in the values of an object and in what some functions make of it. -/
def Expr.listsEntries : Expr → Bool
  | .eachValue .. => true
  | .call name _ => name ∈ Library.listing
  | _ => false

private theorem agree_lookup (name : String) :
    OutcomesAgree (fun f g => f = g ∧ Registry.builtins.get? name = some f)
      (Registry.builtins.lookup name) (Registry.builtins.lookup name) := by
  unfold Registry.lookup
  cases known : Registry.builtins.get? name with
  | none => exact .failure
  | some f => exact .value ⟨rfl, rfl⟩

namespace Expr

/-- Nothing in these nodes lists the entries of an object. -/
def Listless (nodes : List Expr) : Prop :=
  ∀ node ∈ nodes, node.listsEntries = false

private theorem listless_inside {nodes others : List Expr} (listless : Listless others)
    (inside : nodes ⊆ others) : Listless nodes :=
  fun node member => listless node (inside member)

/-- The order in which objects are built does not show in the outcome, except as the order of
keys. -/
theorem eval_agrees {limit : Option Nat} (e : Expr) : ∀ depth, Listless e.nodes →
    EvaluationsAgree (eval ⟨.builtins, .insertion, limit⟩ depth e)
      (eval ⟨.builtins, .sorted, limit⟩ depth e) := by
  induction e using needs_induction with | step e below
  intro depth listless v w alike
  let s : Settings := ⟨.builtins, .insertion, limit⟩
  let t : Settings := ⟨.builtins, .sorted, limit⟩
  have inside : AgreeBelow OutcomesAgree.simulation Value.Alike (eval s (depth + 1))
      (eval t (depth + 1)) e :=
    fun sub needs => below sub needs (depth + 1) (listless_inside listless (needs_nodes needs))
  have combined : OutcomesAgree Value.Alike
      (combine .insertion (eval s (depth + 1)) (callAt s (depth + 1)) e v)
      (combine .sorted (eval t (depth + 1)) (callAt t (depth + 1)) e w) := by
    refine simulated_combine OutcomesAgree.simulation alike_congruence inside
      (fun value _ => alike_refl value) ?spreads ?calls alike
    case spreads =>
      rintro child projection rfl
      cases listless _ (List.mem_cons_self ..)
    case calls =>
      rintro name args rfl v w alike
      have quiet : name ∉ Library.listing := of_decide_eq_false (listless _ (List.mem_cons_self ..))
      exact simulated_call OutcomesAgree.simulation alike_congruence (agree_lookup name)
        (fun _ _ _ _ => agree_same _)
        (fun f known => Library.functions_blind _ (builtin_listed known) quiet) inside alike
  have guards : t.exceeded? depth = s.exceeded? depth := rfl
  change OutcomesAgree Value.Alike (eval s depth e v) (eval t depth e w)
  rw [eval_combine, eval_combine e w, guarded, guarded, guards]
  cases s.exceeded? depth with
  | none => exact combined
  | some reached => exact .failure

/-- Without an operation that lists entries, both orders of objects lead to the same failure or to
values that differ in the order of keys only. -/
theorem evaluate_order_blind {e : Expr} (listless : Listless e.nodes) (document : Value) :
    OutcomesAgree Value.Alike (e.evaluate ⟨.insertion, .builtins⟩ document)
      (e.evaluate ⟨.sorted, .builtins⟩ document) :=
  eval_agrees e 0 listless document document (alike_refl document)

theorem evaluate_order_blind_swapped :
    let e : Expr := .hash [("b", .current), ("a", .call "length" [.list [.current]])]
    Listless e.nodes ∧
      e.evaluate ⟨.insertion, .builtins⟩ (.bool true) =
        .ok (.obj [("b", .bool true), ("a", .int 1)]) ∧
      e.evaluate ⟨.sorted, .builtins⟩ (.bool true) =
        .ok (.obj [("a", .int 1), ("b", .bool true)]) ∧
      OutcomesAgree Value.Alike (e.evaluate ⟨.insertion, .builtins⟩ (.bool true))
        (e.evaluate ⟨.sorted, .builtins⟩ (.bool true)) := by
  intro e
  have listless : Listless e.nodes := by
    simp [e, Listless, listsEntries, Library.listing]
  exact ⟨listless, by cbv, by cbv, evaluate_order_blind listless _⟩

end Expr

end JsonQuery
