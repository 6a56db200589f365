import JsonQuery.Query
import JsonQuery.Proofs.DeepEquality
import JsonQuery.Proofs.LibraryContracts
import JsonQuery.Proofs.Payloads

/-! No object that comes up has a key twice. The entries of an object are a list, and nothing in a
value keeps a key from standing there again; the operations do. Whatever is read from JSON text has
distinct keys, the literals of an expression among it, and from such values every node and every
function of the library make such values. -/
namespace JsonQuery

/-! ## Values -/

namespace Value

/-- What holds no other values has no keys. -/
theorem keys_distinct_flat {v : Value} (noItems : v.toItems? = none)
    (noEntries : v.toEntries? = none) : v.KeysDistinct := by
  intro entries inside
  cases inside with
  | whole => cases noEntries
  | item => cases noItems
  | entry => cases noEntries

private theorem keys_distinct_number {v : Value} (number : v.isNumber = true) : v.KeysDistinct := by
  cases v with
  | int | float => exact keys_distinct_flat rfl rfl
  | _ => cases number

private theorem keys_distinct_items {v : Value} (distinct : v.KeysDistinct) :
    ∀ item ∈ v.toItems?.getD [], item.KeysDistinct := by
  cases v with
  | arr items => exact keys_distinct_arr.mp distinct
  | _ => exact nofun

private theorem keys_distinct_entries {v : Value} (distinct : v.KeysDistinct) :
    ∀ e ∈ v.toEntries?.getD [], e.2.KeysDistinct := by
  cases v with
  | obj entries => exact (keys_distinct_obj.mp distinct).2
  | _ => exact nofun

private theorem keys_distinct_or_null {found : Option Value}
    (each : ∀ v, found = some v → v.KeysDistinct) :
    (found.getD .null).KeysDistinct := by
  cases found with
  | none => exact keys_distinct_flat rfl rfl
  | some v => exact each v rfl

end Value

private theorem denotable_keys (denotable : Denotable nesting v) : v.KeysDistinct := by
  induction denotable with
  | arr _ each => exact Value.keys_distinct_arr.mpr each
  | obj distinct _ each => exact Value.keys_distinct_obj.mpr ⟨distinct, each⟩
  | _ => exact Value.keys_distinct_flat rfl rfl

private theorem Json.read_keys (read : readChars? cs = some v) : v.KeysDistinct := by
  obtain ⟨t, found, rfl⟩ := Option.map_eq_some_iff.mp read
  obtain ⟨⟨_, rest⟩, tree, ends⟩ := Option.bind_eq_some_iff.mp found
  dsimp only at ends
  split_ifs at ends
  cases ends
  exact denotable_keys (value_denotable _ _ _ _ tree)

/-- The object of entries whose values have distinct keys. -/
theorem build_keys (order : ObjectOrder) {entries : List (String × Value)}
    (each : ∀ e ∈ entries, e.2.KeysDistinct) : (buildObject order entries).KeysDistinct := by
  have distinct := Dict.distinct_of_entries entries
  have values : ∀ e ∈ Dict.ofEntries entries, e.2.KeysDistinct := by
    intro e member
    rcases Dict.mem_insertAll entries [] member with none | listed
    · cases none
    · exact each e listed
  cases order with
  | insertion => exact Value.keys_distinct_obj.mpr ⟨distinct, values⟩
  | sorted =>
    have sorted := List.mergeSort_perm (Dict.ofEntries entries) fun a b => a.1 ≤ b.1
    exact Value.keys_distinct_obj.mpr
      ⟨Dict.perm_distinct sorted.symm distinct, fun e member => values e (sorted.mem_iff.mp member)⟩

/-! ## Nodes -/

/-- The same value, with distinct keys. -/
def Value.Intact (v w : Value) : Prop :=
  v.KeysDistinct ∧ v = w

private theorem intact_items :
    List.Forall₂ Value.Intact as bs ↔ (∀ v ∈ as, v.KeysDistinct) ∧ as = bs := by
  unfold Value.Intact
  rw [List.forall₂_and_left, List.forall₂_eq_eq_eq]

private theorem intact_flat {v : Value} (noItems : v.toItems? = none)
    (noEntries : v.toEntries? = none) :
    v.Intact v :=
  ⟨Value.keys_distinct_flat noItems noEntries, rfl⟩

private theorem compare_flat (op : Comparator) (a b : Value) :
    (compareValues op a b).toItems? = none ∧ (compareValues op a b).toEntries? = none := by
  unfold compareValues
  split
  · exact ⟨rfl, rfl⟩
  · exact ⟨rfl, rfl⟩
  · split <;> exact ⟨rfl, rfl⟩

private theorem intact_congruence (order : ObjectOrder) : Congruence Value.Intact order order where
  null := intact_flat rfl rfl
  bool _ := intact_flat rfl rfl
  arr items := by
    obtain ⟨distinct, rfl⟩ := intact_items.mp items
    exact ⟨Value.keys_distinct_arr.mpr distinct, rfl⟩
  isNull kept := by rw [kept.2]
  isTruthy kept := by rw [kept.2]
  field {v w} kept name := by
    obtain ⟨distinct, rfl⟩ := kept
    refine ⟨?_, rfl⟩
    cases v with
    | obj entries =>
      refine Value.keys_distinct_or_null fun held found => ?_
      exact (Value.keys_distinct_obj.mp distinct).2 _ (Dict.mem_of_find? found)
    | _ => exact Value.keys_distinct_flat rfl rfl
  items {v w} kept := by
    obtain ⟨distinct, rfl⟩ := kept
    cases v with
    | arr items => exact .some (intact_items.mpr ⟨Value.keys_distinct_arr.mp distinct, rfl⟩)
    | _ => exact .none
  compare {a b c d} op first second := by
    rw [first.2, second.2]
    obtain ⟨noItems, noEntries⟩ := compare_flat op b d
    exact intact_flat noItems noEntries
  build {xs ys} entries := by
    have both : List.Forall₂ (fun x y => x.2.KeysDistinct ∧ x = y) xs ys :=
      entries.imp fun _ _ related => ⟨related.2.1, Prod.ext related.1 related.2.2⟩
    rw [List.forall₂_and_left, List.forall₂_eq_eq_eq] at both
    obtain ⟨each, rfl⟩ := both
    exact ⟨build_keys order each, rfl⟩
  typeName kept := by rw [kept.2]
  accepts kept _ := by rw [kept.2]

private theorem intact_spreads : Spreads Value.Intact := by
  rintro v _ ⟨distinct, rfl⟩
  cases v with
  | obj entries =>
    refine .some (intact_items.mpr ⟨fun w among => ?_, rfl⟩)
    obtain ⟨e, member, rfl⟩ := List.mem_map.mp among
    exact (Value.keys_distinct_obj.mp distinct).2 e member
  | _ => exact .none

/-! ## Calls -/

/-- A value, if there is one, is of this kind. -/
abbrev GivesOnly {α : Type} (kind : α → Prop) (outcome : Except EvalError α) : Prop :=
  EndsAs (fun _ => True) kind outcome

private theorem gives_iff {α : Type} {kind : α → Prop} {outcome : Except EvalError α} :
    GivesOnly kind outcome ↔ ∀ a, outcome = .ok a → kind a := by
  cases outcome with
  | ok a => exact ⟨by rintro holds _ ⟨⟩; exact holds, fun each => each a rfl⟩
  | error e => exact ⟨fun _ => nofun, fun _ => trivial⟩

/-- A value with distinct keys, or an expression that gives such values on such values. -/
def ArgumentIn.KeepsKeys : Argument → Prop
  | .value v => v.KeysDistinct
  | .expression _ f => ∀ v, v.KeysDistinct → GivesOnly Value.KeysDistinct (f v)

/-- From arguments with distinct keys the function makes a value with distinct keys. -/
def Function.KeepsKeys (f : Function) : Prop :=
  ∀ args : List Argument, (∀ a ∈ args, a.KeepsKeys) → GivesOnly Value.KeysDistinct (f.call args)

/-- Every function does. -/
def Registry.KeepsKeys (functions : Registry) : Prop :=
  ∀ name f, functions.get? name = some f → f.KeepsKeys

namespace Library

private theorem argument_keys {a : Argument} (keeps : a.KeepsKeys) : a.toValue.KeysDistinct := by
  cases a with
  | value v => exact keeps
  | expression => exact Value.keys_distinct_flat rfl rfl

section

variable {args : List Argument} (each : ∀ a ∈ args, a.KeepsKeys)
include each

private theorem value_keys (index : Nat) : (valueAt args index).KeysDistinct := by
  refine Value.keys_distinct_or_null fun v found => ?_
  obtain ⟨a, there, rfl⟩ := Option.map_eq_some_iff.mp found
  exact argument_keys (each a (List.mem_of_getElem? there))

private theorem items_keys (index : Nat) : ∀ item ∈ itemsAt args index, item.KeysDistinct :=
  Value.keys_distinct_items (value_keys each index)

private theorem expression_keys (function : String) (index : Nat) :
    GivesOnly (fun f => ∀ v, v.KeysDistinct → GivesOnly Value.KeysDistinct (f v))
      (expressionAt function args index) := by
  rw [gives_iff]
  intro f found
  unfold expressionAt at found
  split at found
  · rename_i evaluate there
    cases found
    obtain ⟨a, listed, evaluates⟩ := Option.bind_eq_some_iff.mp there
    have kept := each a (List.mem_of_getElem? listed)
    cases a with
    | value => cases evaluates
    | expression e own =>
      cases evaluates
      exact kept
  · cases found

end

private theorem unary_keys (types : List DataType) {f : Value → Value}
    (keeps : ∀ v, v.KeysDistinct → (f v).KeysDistinct) : (unary types f).KeepsKeys :=
  fun _ each => keeps _ (value_keys each 0)

private theorem binary_keys (first second : List DataType) {f : Value → Value → Value}
    (makes : ∀ a b, (f a b).KeysDistinct) : (binary first second f).KeepsKeys :=
  fun _ _ => makes _ _

private theorem of_items_keys (types : List DataType) {f : List Value → Value}
    (keeps : ∀ items, (∀ item ∈ items, item.KeysDistinct) → (f items).KeysDistinct) :
    (ofItems types f).KeepsKeys :=
  fun _ each => keeps _ (items_keys each 0)

private theorem abs_keys (v : Value) (_ : v.KeysDistinct) : (abs v).KeysDistinct := by
  cases v with
  | int | float => exact Value.keys_distinct_number (abs_number rfl)
  | _ => exact Value.keys_distinct_flat rfl rfl

private theorem rounded_keys {round : Double → Double} (v : Value) (distinct : v.KeysDistinct) :
    (rounded round v).KeysDistinct := by
  cases v with
  | float => exact Value.keys_distinct_number (rounded_number rfl)
  | _ => exact distinct

private theorem sum_keys (items : List Value) (_ : ∀ item ∈ items, item.KeysDistinct) :
    (Value.sum items).KeysDistinct :=
  Value.keys_distinct_number (sum_number items)

private theorem avg_keys (items : List Value) (_ : ∀ item ∈ items, item.KeysDistinct) :
    (avg items).KeysDistinct := by
  unfold avg
  split
  · exact Value.keys_distinct_flat rfl rfl
  · split <;> exact Value.keys_distinct_flat rfl rfl

private theorem contains_keys (a b : Value) : (contains a b).KeysDistinct := by
  unfold contains
  split <;> exact Value.keys_distinct_flat rfl rfl

private theorem starts_with_keys (a b : Value) : (startsWith a b).KeysDistinct := by
  unfold startsWith
  split <;> exact Value.keys_distinct_flat rfl rfl

private theorem ends_with_keys (a b : Value) : (endsWith a b).KeysDistinct := by
  unfold endsWith
  split <;> exact Value.keys_distinct_flat rfl rfl

private theorem join_keys (s : Signature) :
    (Function.mk s fun args => .ok (join (valueAt args 0) (itemsAt args 1))).KeepsKeys :=
  fun _ _ => Value.keys_distinct_flat rfl rfl

private theorem keys_keys (v : Value) (_ : v.KeysDistinct) : (keys v).KeysDistinct := by
  cases v with
  | obj entries =>
    refine Value.keys_distinct_arr.mpr fun item member => ?_
    obtain ⟨e, -, rfl⟩ := List.mem_map.mp member
    exact Value.keys_distinct_flat rfl rfl
  | _ => exact Value.keys_distinct_flat rfl rfl

private theorem values_keys (v : Value) (distinct : v.KeysDistinct) : (values v).KeysDistinct := by
  cases v with
  | obj entries =>
    refine Value.keys_distinct_arr.mpr fun item member => ?_
    obtain ⟨e, listed, rfl⟩ := List.mem_map.mp member
    exact (Value.keys_distinct_obj.mp distinct).2 e listed
  | _ => exact Value.keys_distinct_flat rfl rfl

private theorem length_keys (v : Value) (_ : v.KeysDistinct) : (length v).KeysDistinct := by
  unfold length
  split <;> exact Value.keys_distinct_flat rfl rfl

private theorem reverse_keys (v : Value) (distinct : v.KeysDistinct) :
    (reverse v).KeysDistinct := by
  cases v with
  | arr items =>
    have each := Value.keys_distinct_arr.mp distinct
    exact Value.keys_distinct_arr.mpr fun item member => each item (List.mem_reverse.mp member)
  | _ => exact Value.keys_distinct_flat rfl rfl

private theorem to_array_keys (v : Value) (distinct : v.KeysDistinct) :
    (toArray v).KeysDistinct := by
  cases v with
  | arr => exact distinct
  | _ => exact Value.keys_distinct_arr.mpr (List.forall_mem_singleton.mpr distinct)

private theorem to_number_keys (v : Value) (_ : v.KeysDistinct) : (toNumber v).KeysDistinct := by
  obtain number | null := to_number_number v
  · exact Value.keys_distinct_number number
  · exact null ▸ Value.keys_distinct_flat rfl rfl

private theorem to_text_keys (v : Value) (_ : v.KeysDistinct) : (toText v).KeysDistinct := by
  cases v <;> exact Value.keys_distinct_flat rfl rfl

private theorem type_keys (v : Value) (_ : v.KeysDistinct) : (Value.str v.typeName).KeysDistinct :=
  Value.keys_distinct_flat rfl rfl

/-- A choice among items is one of them, or there are none. -/
theorem chosen_keys {α : Type} {choose : List α → Option α} (chooses : Chooses choose)
    {f : α → Value} {items : List α} (each : ∀ item ∈ items, (f item).KeysDistinct) :
    (((choose items).map f).getD .null).KeysDistinct := by
  refine Value.keys_distinct_or_null fun v found => ?_
  obtain ⟨item, picked, rfl⟩ := Option.map_eq_some_iff.mp found
  by_cases none : items = []
  · subst none
    cases chooses.1.symm.trans picked
  · obtain ⟨other, member, same⟩ := chooses.2 items none
    cases same.symm.trans picked
    exact each item member

private theorem max_keys (items : List Value) (each : ∀ item ∈ items, item.KeysDistinct) :
    (max items).KeysDistinct := by
  have kept := chosen_keys (last_greatest_chooses Value.less) (f := id) each
  rwa [Option.map_id] at kept

private theorem min_keys (items : List Value) (each : ∀ item ∈ items, item.KeysDistinct) :
    (min items).KeysDistinct := by
  have kept := chosen_keys (first_least_chooses Value.less) (f := id) each
  rwa [Option.map_id] at kept

private theorem not_null_keys (s : Signature) :
    (Function.mk s fun args => .ok (notNull args)).KeepsKeys := by
  intro args each
  refine Value.keys_distinct_or_null fun v found => ?_
  obtain ⟨a, member, rfl⟩ := List.mem_map.mp (List.mem_of_find?_eq_some found)
  exact argument_keys (each a member)

private theorem merge_keys (s : Signature) :
    (Function.mk s fun args => .ok (merge args)).KeepsKeys := by
  intro args each
  have running : ∀ merged : Dict Value, (Value.obj merged).KeysDistinct →
      (Value.obj (args.foldl (fun d a => Dict.insertAll d (a.toValue.toEntries?.getD []))
        merged)).KeysDistinct := by
    induction args with
    | nil => exact fun _ distinct => distinct
    | cons a rest ih =>
      obtain ⟨first, others⟩ := List.forall_mem_cons.mp each
      intro merged distinct
      refine ih others _ ?_
      obtain ⟨apart, held⟩ := Value.keys_distinct_obj.mp distinct
      refine Value.keys_distinct_obj.mpr ⟨Dict.distinct_insert_all _ _ apart, fun e member => ?_⟩
      rcases Dict.mem_insertAll _ _ member with before | inserted
      · exact held e before
      · exact Value.keys_distinct_entries (argument_keys first) e inserted
  exact running [] (Value.keys_distinct_obj.mpr ⟨List.nodup_nil, nofun⟩)

private theorem results_keys {f : Value → Except EvalError Value}
    (keeps : ∀ v, v.KeysDistinct → GivesOnly Value.KeysDistinct (f v)) {items : List Value}
    (each : ∀ item ∈ items, item.KeysDistinct) :
    GivesOnly (fun results => ∀ v ∈ results, v.KeysDistinct) (items.mapM f) := by
  induction items with
  | nil => exact nofun
  | cons item rest ih =>
    obtain ⟨first, others⟩ := List.forall_mem_cons.mp each
    rw [List.mapM_cons]
    exact ends_then (keeps item first) fun v result => ends_then (ih others) fun vs results =>
      List.forall_mem_cons.mpr ⟨result, results⟩

private theorem map_keys (s : Signature) : (Function.mk s map).KeepsKeys := by
  intro args each
  refine ends_then (expression_keys each "map" 0) fun f keeps => ?_
  exact ends_then (results_keys keeps (items_keys each 1)) fun results kept =>
    Value.keys_distinct_arr.mpr kept

/-- Items keep their keys in the order that they are brought to. -/
theorem ascending_among {α : Type} (less : α → α → Bool) (items : List α) :
    GivesOnly (fun sorted => ∀ item ∈ sorted, item ∈ items) (ascending less items) := by
  unfold ascending
  split
  · rename_i sorted found
    exact fun item member => (sort_stable_perm found).mem_iff.mp member
  · trivial

private theorem sort_keys (s : Signature) :
    (Function.mk s fun args => sort (itemsAt args 0)).KeepsKeys := by
  intro args each
  have items := items_keys each 0
  exact ends_then (ascending_among _ _) fun sorted among =>
    Value.keys_distinct_arr.mpr fun item member => items item (among item member)

/-- The functions that work on items with their keys differ in what they make of them. -/
theorem keyed_keys (s : Signature) (function : String)
    {finish : List (Value × Value) → Except EvalError Value}
    (keeps : ∀ pairs, (∀ pair ∈ pairs, pair.2.KeysDistinct) →
      GivesOnly Value.KeysDistinct (finish pairs)) :
    (Function.mk s fun args => keyedItems function args >>= finish).KeepsKeys := by
  intro args each
  refine ends_then (ends_then (expression_keys each function 1) fun f _ => ?_) keeps
  have items := items_keys each 0
  refine gives_iff.mpr fun pairs found pair member => ?_
  have ends := keyed_ends function f (itemsAt args 0) none
  rw [found] at ends
  exact items pair.2 (ends.1 ▸ List.mem_map_of_mem member)

private theorem max_by_keys_kept (s : Signature) : (Function.mk s maxBy).KeepsKeys :=
  keyed_keys s "max_by" fun _ each => chosen_keys (last_greatest_chooses lessByKey) each

private theorem min_by_keys_kept (s : Signature) : (Function.mk s minBy).KeepsKeys :=
  keyed_keys s "min_by" fun _ each => chosen_keys (first_least_chooses lessByKey) each

private theorem sort_by_keys_kept (s : Signature) : (Function.mk s sortBy).KeepsKeys := by
  refine keyed_keys s "sort_by" fun pairs each => ?_
  refine ends_then (ascending_among lessByKey pairs) fun sorted among => ?_
  refine Value.keys_distinct_arr.mpr fun item member => ?_
  obtain ⟨pair, listed, rfl⟩ := List.mem_map.mp member
  exact each pair (among pair listed)

private theorem functions_keys : ∀ entry ∈ functions, entry.2.KeepsKeys := by
  simp [functions, ceil, floor, unary_keys _ abs_keys, unary_keys _ rounded_keys,
    of_items_keys _ avg_keys, binary_keys _ _ contains_keys, binary_keys _ _ ends_with_keys,
    join_keys, unary_keys _ keys_keys, unary_keys _ length_keys, map_keys, of_items_keys _ max_keys,
    max_by_keys_kept, merge_keys, of_items_keys _ min_keys, min_by_keys_kept, not_null_keys,
    unary_keys _ reverse_keys, sort_keys, sort_by_keys_kept, binary_keys _ _ starts_with_keys,
    of_items_keys _ sum_keys, unary_keys _ to_array_keys, unary_keys _ to_number_keys,
    unary_keys _ to_text_keys, unary_keys _ type_keys, unary_keys _ values_keys]

end Library

theorem builtins_keep_keys : Registry.builtins.KeepsKeys :=
  fun _ _ known => Library.functions_keys _ (builtin_listed known)

/-! ## Evaluations -/

/-- The outcomes that give related values only; what they are related to is of no account. -/
def GivesOnly.simulation : Simulation (Except EvalError) (Except EvalError) where
  holds agree outcome _ := GivesOnly (fun a => ∃ b, agree a b) outcome
  value agree := ⟨_, agree⟩
  next first others := ends_then first fun a ⟨b, agree⟩ => others a b agree

private theorem gives_intact {outcome other : Except EvalError Value} :
    GivesOnly.simulation.holds Value.Intact outcome other ↔
      GivesOnly Value.KeysDistinct outcome := by
  change GivesOnly _ outcome ↔ _
  rw [gives_iff, gives_iff]
  exact ⟨fun each v found => (each v found).choose_spec.1,
    fun each v found => ⟨v, each v found, rfl⟩⟩

private theorem matched_keys {args others : List Argument} (matched : List.Forall₂
      (ArgumentsMatch Value.Intact (GivesOnly.simulation.holds Value.Intact)) args others) :
    ∀ a ∈ args, a.KeepsKeys := by
  induction matched with
  | nil => exact nofun
  | cons first _ ih =>
    refine List.forall_mem_cons.mpr ⟨?_, ih⟩
    cases first with
    | value kept => exact kept.1
    | expression each => exact fun v distinct => gives_intact.mp (each v v ⟨distinct, rfl⟩)

namespace Expr

/-- No literal among the nodes has a key twice. -/
def LiteralsKept (nodes : List Expr) : Prop :=
  ∀ value, .literal value ∈ nodes → value.KeysDistinct

/-- From a value with distinct keys an evaluation makes a value with distinct keys. -/
theorem eval_keys {s : Settings} (functions : s.functions.KeepsKeys) (e : Expr) :
    ∀ depth v, LiteralsKept e.nodes → v.KeysDistinct →
      GivesOnly Value.KeysDistinct (eval s depth e v) := by
  induction e using needs_induction with | step e below
  intro depth v literals distinct
  -- The evaluation stands beside itself, since nothing is asked but what it gives.
  have inside : AgreeBelow GivesOnly.simulation Value.Intact (eval s (depth + 1))
      (eval s (depth + 1)) e := by
    rintro sub needs w _ ⟨known, rfl⟩
    exact gives_intact.mpr (below sub needs (depth + 1) w
      (fun value member => literals value (needs_nodes needs member)) known)
  have combined : GivesOnly.simulation.holds Value.Intact
      (combine s.order (eval s (depth + 1)) (callAt s (depth + 1)) e v)
      (combine s.order (eval s (depth + 1)) (callAt s (depth + 1)) e v) := by
    refine simulated_combine GivesOnly.simulation (intact_congruence s.order) inside ?literals
      (fun _ _ _ => intact_spreads) ?calls ⟨distinct, rfl⟩
    case literals =>
      rintro value rfl
      exact ⟨literals value (List.mem_cons_self ..), rfl⟩
    case calls =>
      rintro name args rfl w _ kept
      refine simulated_call GivesOnly.simulation (intact_congruence s.order) ?_ ?_ ?_ inside kept
      · refine gives_iff.mpr fun f found => ⟨f, rfl, ?_⟩
        unfold Registry.lookup at found
        split at found
        · cases found
          assumption
        · cases found
      · exact fun _ _ _ _ => gives_iff.mpr fun u _ => ⟨u, rfl⟩
      · exact fun f known resolved _ matched =>
          gives_intact.mpr (functions name f known resolved (matched_keys matched))
  rw [eval_combine, guarded]
  cases s.exceeded? depth with
  | none => exact gives_intact.mp combined
  | some limit => trivial

/-! ## Literals -/

private theorem element_payloads (es : List Expr) : elementPayloads es = es.flatMap payloads := by
  induction es with
  | nil => rfl
  | cons e rest ih => rw [elementPayloads, ih, List.flatMap_cons]

private theorem entry_payloads {entries : List (String × Expr)} (member : entry ∈ entries) :
    entry.2.payloads ⊆ entryPayloads entries := by
  induction entries with
  | nil => cases member
  | cons first rest ih =>
    rw [entryPayloads]
    rcases List.mem_cons.mp member with rfl | listed
    · exact fun payload inside => List.mem_append_left _ (List.mem_cons_of_mem _ inside)
    · exact fun payload inside => List.mem_append_right _ (ih listed inside)

private theorem child_payloads {e : Expr} (child : c ∈ e.children) : c.payloads ⊆ e.payloads := by
  cases e with
  | identity | current | field | index | slice | literal => cases child
  | list elements =>
    rw [payloads, element_payloads]
    exact fun payload inside => List.mem_flatMap.mpr ⟨c, child, inside⟩
  | call name args =>
    rw [payloads, element_payloads]
    exact fun payload inside => List.mem_cons_of_mem _ (List.mem_flatMap.mpr ⟨c, child, inside⟩)
  | hash entries =>
    obtain ⟨entry, member, rfl⟩ := List.mem_map.mp child
    exact entry_payloads member
  | _ =>
    simp only [children, List.mem_cons, List.not_mem_nil, or_false] at child
    grind [payloads]

/-- An expression carries its literals. -/
theorem literal_payload (e : Expr) : .literal value ∈ e.nodes → .value value ∈ e.payloads := by
  induction e using needs_induction with | step e below
  rw [nodes_children, List.mem_cons, mem_nodes_of]
  rintro (rfl | ⟨child, member, inside⟩)
  · exact List.mem_singleton_self _
  · exact child_payloads member (below child (.inl member) inside)

end Expr

private theorem spelled_keys (spells : Spells cs (.literal v) behind) : v.KeysDistinct := by
  cases spells with
  | @delimited _ what _ _ _ denotes =>
    have read := denotes 0
    cases what with
    | quotedIdentifier =>
      unfold delimitedToken at read
      dsimp only at read
      split at read <;> cases read
    | rawString => cases read
    | literal =>
      unfold delimitedToken at read
      dsimp only at read
      split at read
      · cases read
        exact Json.read_keys ‹_›
      · cases read

private theorem lexed_keys (lexes : Lexes cs tokens) :
    ∀ v, .literal v ∈ tokens → v.KeysDistinct := by
  induction lexes with
  | nil => exact nofun
  | blank _ _ ih => exact ih
  | token spells _ ih =>
    intro v member
    rcases List.mem_cons.mp member with rfl | later
    · exact spelled_keys spells
    · exact ih v later

private theorem payload_literal (carried : .value v ∈ payloadsOf tokens) :
    .literal v ∈ tokens ∨ ∃ text, v = .str text := by
  obtain ⟨t, member, carries⟩ := List.mem_filterMap.mp carried
  cases t <;> cases carries
  · exact .inr ⟨_, rfl⟩
  · exact .inl member

/-- The literals of a text have distinct keys. -/
theorem Expr.parse_keys (parsed : Expr.parse text = .ok e) : LiteralsKept e.nodes := by
  intro value member
  obtain ⟨s, lexed, ⟨-, rfl⟩ | reads⟩ := parse_within_reads parsed
  · simp at member
  · have carried : .value value ∈ payloadsOf s.tokens := by
      have payload := literal_payload e member
      rwa [reads_payloads reads] at payload
    obtain listed | ⟨text, rfl⟩ := payload_literal carried
    · exact lexed_keys (text_lexes lexed) value listed
    · exact Value.keys_distinct_flat rfl rfl

private theorem Query.search_found {text : String} (found : search o text document = .ok v) :
    ∃ e, Expr.parse text = .ok e ∧ e.evaluate o document = .ok v := by
  unfold search compile at found
  cases parsed : Expr.parse text with
  | error e =>
    rw [parsed] at found
    cases found
  | ok e =>
    rw [parsed] at found
    change (e.evaluate o document).mapError SearchError.eval = .ok v at found
    refine ⟨e, rfl, ?_⟩
    cases result : e.evaluate o document with
    | ok w =>
      rw [result] at found
      exact congrArg _ (Except.ok.inj found)
    | error e =>
      rw [result] at found
      cases found

/-- Searching a value with distinct keys gives such a value. -/
theorem Query.search_keys {o : Options} {text : String} (functions : o.functions.KeepsKeys)
    (distinct : document.KeysDistinct) (found : search o text document = .ok v) :
    v.KeysDistinct := by
  obtain ⟨e, parsed, result⟩ := search_found found
  exact gives_iff.mp (Expr.eval_keys (s := o.settings) functions e 0 document
    (Expr.parse_keys parsed) distinct) v result

/-! ## Documents -/

/-- A value in which no object has a key twice. -/
structure Document where
  value : Value
  distinct : value.KeysDistinct

namespace Document

/-- The document of a JSON text. -/
def read? (text : String) : Option Document :=
  (Json.read? text).pmap Document.mk fun _ read => Json.read_keys read

/-- Searches a document, with functions that keep keys distinct. -/
def search (o : Options) (functions : o.functions.KeepsKeys) (text : String) (d : Document) :
    Except SearchError Document :=
  match found : Query.search o text d.value with
  | .ok v => .ok ⟨v, Query.search_keys functions d.distinct found⟩
  | .error e => .error e

theorem read_value (text : String) : (read? text).map value = Json.read? text := by
  rw [read?, Option.map_pmap, Option.pmap_eq_map, Option.map_id']

/-- Nothing is lost with documents: their searches are those of their values. -/
theorem search_value {o : Options} (functions : o.functions.KeepsKeys) (text : String)
    (d : Document) : (d.search o functions text).map value = Query.search o text d.value := by
  unfold search
  split
  · rename_i v found
    exact found.symm
  · rename_i e found
    exact found.symm

end Document

end JsonQuery
