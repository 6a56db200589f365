import JsonQuery.Eval
import JsonQuery.Function.Library
import JsonQuery.Proofs.Dictionaries
import JsonQuery.Proofs.NameOrder

/-! Objects as ordered maps. Merging leaves the keys of the first object where they are and puts the
new keys of the second behind them; of a key that both have the later value counts. This settles a
merged object entirely, so that merging is associative with the order of the keys included. An
expression that builds an object merges objects of one entry each, from left to right. -/
namespace JsonQuery

/-! ## Dictionaries laid over one another -/

/-- The second dictionary laid over the first. -/
structure Dict.Overlays {α : Type} (a b d : Dict α) : Prop where
  keys : d.keys = a.keys ++ b.keys.filter (· ∉ a.keys)
  found : ∀ key, d.find? key = (b.find? key).or (a.find? key)
  distinct : d.Distinct

namespace Dict

variable {α : Type} {a b c d other : Dict α}

/-- Distinct keys and what is found under them make up the whole dictionary. -/
theorem rebuilt (distinct : d.Distinct) :
    d.keys.filterMap (fun key => (d.find? key).map (key, ·)) = d := by
  rw [keys, List.filterMap_map]
  calc d.filterMap _ = d.filterMap some := List.filterMap_congr fun entry member => by
        rw [Function.comp_apply, (find_eq_iff distinct).mpr member]
        rfl
    _ = d := List.filterMap_some

private theorem overlays_unique (first : Overlays a b d) (second : Overlays a b other) :
    d = other := by
  rw [← rebuilt first.distinct, ← rebuilt second.distinct, first.keys, second.keys]
  refine List.filterMap_congr fun key _ => ?_
  rw [first.found, second.found]

private theorem keys_insert_all (entries : Dict α) : ∀ d : Dict α, entries.Distinct →
    (d.insertAll entries).keys = d.keys ++ entries.keys.filter (· ∉ d.keys) := by
  induction entries with
  | nil => exact fun d _ => (List.append_nil d.keys).symm
  | cons entry rest ih =>
    intro d distinct
    obtain ⟨key, a⟩ := entry
    obtain ⟨fresh, others⟩ := List.nodup_cons.mp distinct
    have step : (d.insertAll ((key, a) :: rest)).keys = ((d.insert key a).insertAll rest).keys := rfl
    have whole : keys ((key, a) :: rest) = key :: keys rest := rfl
    rw [step, ih _ others, keys_insert, whole]
    by_cases present : key ∈ d.keys
    · rw [if_pos present, List.filter_cons_of_neg (by simpa using present)]
    · -- The keys behind are all others, so that it makes no difference whether this one is in.
      have behind : (keys rest).filter (· ∉ d.keys ++ [key]) = (keys rest).filter (· ∉ d.keys) := by
        refine List.filter_congr fun k member => ?_
        have apart : k ≠ key := fun same => fresh (same ▸ member)
        simp [apart]
      rw [if_neg present, behind, List.filter_cons_of_pos (by simpa using present),
        List.append_assoc, List.singleton_append]

private theorem insert_all_overlays (first : a.Distinct) (second : b.Distinct) :
    Overlays a b (a.insertAll b) where
  keys := keys_insert_all b a second
  found key := by
    have backwards : b.reverse.Perm b := List.reverse_perm b
    rw [find_insert_all, find_perm (perm_distinct backwards.symm second) backwards]
  distinct := distinct_insert_all b a first

/-- Three dictionaries come to lie over one another in the same way from either side. -/
theorem overlays_trans (left : Overlays a b ab) (whole : Overlays ab c d) (right : Overlays b c bc) :
    Overlays a bc d where
  keys := by
    have both : c.keys.filter (· ∉ a.keys ++ b.keys.filter (· ∉ a.keys)) =
        (c.keys.filter (· ∉ b.keys)).filter (· ∉ a.keys) := by
      rw [List.filter_filter]
      refine List.filter_congr fun key _ => ?_
      by_cases first : key ∈ a.keys <;> simp [first]
    rw [whole.keys, left.keys, right.keys, List.filter_append, List.append_assoc, both]
  found key := by rw [whole.found, left.found, right.found, Option.or_assoc]
  distinct := whole.distinct

private theorem overlays_nil_left (distinct : a.Distinct) : Overlays [] a a where
  keys := by simp [keys]
  found key := by simp [find?]
  distinct := distinct

private theorem overlays_nil_right (distinct : a.Distinct) : Overlays a [] a where
  keys := by simp [keys]
  found key := by simp [find?]
  distinct := distinct

private theorem overlays_self (distinct : a.Distinct) : Overlays a a a where
  keys := by simp
  found key := by simp
  distinct := distinct

end Dict

/-! ## Merging -/

namespace Library

variable {a b c d : Dict Value}

/-- Two objects merged. -/
def mergeTwo (v w : Value) : Value :=
  merge [.value v, .value w]

private theorem merge_two_entries (distinct : a.Distinct) (w : Value) :
    mergeTwo (.obj a) w = .obj (a.insertAll (w.toEntries?.getD [])) := by
  have itself : Dict.insertAll [] a = a := Dict.of_entries_distinct distinct
  simp only [mergeTwo, merge, ArgumentIn.toValue, Value.toEntries?, List.foldl_cons, List.foldl_nil,
    Option.getD_some, itself]

private theorem merge_two_overlays (first : a.Distinct) (second : b.Distinct) :
    ∃ d, mergeTwo (.obj a) (.obj b) = .obj d ∧ Dict.Overlays a b d :=
  ⟨_, merge_two_entries first _, Dict.insert_all_overlays first second⟩

/-- What lies over a dictionary is its merger with the other one. -/
theorem merge_two_eq (first : a.Distinct) (second : b.Distinct) (overlays : Dict.Overlays a b d) :
    mergeTwo (.obj a) (.obj b) = .obj d := by
  obtain ⟨other, merged, same⟩ := merge_two_overlays first second
  rw [merged, Dict.overlays_unique same overlays]

private theorem merge_two_assoc (first : a.Distinct) (second : b.Distinct) (third : c.Distinct) :
    mergeTwo (mergeTwo (.obj a) (.obj b)) (.obj c) =
      mergeTwo (.obj a) (mergeTwo (.obj b) (.obj c)) := by
  obtain ⟨ab, left, leftOver⟩ := merge_two_overlays first second
  obtain ⟨bc, right, rightOver⟩ := merge_two_overlays second third
  obtain ⟨abc, whole, wholeOver⟩ := merge_two_overlays leftOver.distinct third
  rw [left, whole, right, merge_two_eq first rightOver.distinct
    (Dict.overlays_trans leftOver wholeOver rightOver)]

/-- Any number of arguments is merged two at a time, from left to right. -/
theorem merge_from_left (args : List Argument) :
    merge args = (args.map ArgumentIn.toValue).foldl mergeTwo (.obj []) := by
  have running (args : List Argument) : ∀ merged : Dict Value, merged.Distinct →
      (args.map ArgumentIn.toValue).foldl mergeTwo (.obj merged) =
        .obj (args.foldl (fun d a => Dict.insertAll d (a.toValue.toEntries?.getD [])) merged) := by
    induction args with
    | nil => exact fun _ _ => rfl
    | cons arg rest ih =>
      intro merged distinct
      rw [List.map_cons, List.foldl_cons, List.foldl_cons, merge_two_entries distinct]
      exact ih _ (Dict.distinct_insert_all _ _ distinct)
  exact (running args [] List.nodup_nil).symm

/-- Objects of one entry each merge into the dictionary of these entries. -/
theorem merge_single_entries (entries : Dict Value) :
    (entries.map fun entry => Value.obj [entry]).foldl mergeTwo (.obj []) =
      .obj (Dict.ofEntries entries) := by
  have merged := merge_from_left (entries.map fun entry => .value (.obj [entry]))
  rw [List.map_map] at merged
  refine merged.symm.trans ?_
  rw [merge, List.foldl_map]
  rfl

end Library

/-! ## Building -/

/-- With its keys sorted an object has the same entries, and the keys ascend. -/
theorem build_sorted (entries : List (String × Value)) :
    ∃ sorted : Dict Value, buildObject .sorted entries = .obj sorted ∧
      sorted.Perm (Dict.ofEntries entries) ∧ sorted.keys.Pairwise (· < ·) := by
  have ascending := sort_names_ascending Prod.fst _ (Dict.distinct_of_entries entries)
  exact ⟨_, rfl, List.mergeSort_perm _ _, ascending⟩

private theorem build_single (order : ObjectOrder) (entry : String × Value) :
    buildObject order [entry] = .obj [entry] := by
  cases order with
  | insertion => rfl
  | sorted => exact congrArg Value.obj (List.mergeSort_singleton entry)

namespace Expr
open Library

variable {s : Settings} {depth : Nat} {v : Value} {pairs : List (String × Expr)}

private theorem eval_hash (room : s.exceeded? depth = none) (present : v.isNull = false)
    (pairs : List (String × Expr)) : eval s depth (.hash pairs) v =
      (evalEntries s (depth + 1) pairs v).map (buildObject s.order) := by
  rw [eval, room]
  dsimp only
  rw [present, if_neg Bool.false_ne_true]
  cases evalEntries s (depth + 1) pairs v <;> rfl

private theorem eval_hash_single (room : s.exceeded? depth = none) (present : v.isNull = false)
    (pair : String × Expr) : eval s depth (.hash [pair]) v =
      (eval s (depth + 1) pair.2 v).map fun w => .obj [(pair.1, w)] := by
  rw [eval_hash room present, evalEntries]
  cases eval s (depth + 1) pair.2 v with
  | error why => rfl
  | ok w => exact congrArg Except.ok (build_single s.order (pair.1, w))

/-- The objects of the single pairs are the entries one by one. -/
theorem single_objects (room : s.exceeded? depth = none) (present : v.isNull = false)
    (pairs : List (String × Expr)) : pairs.mapM (fun pair => eval s depth (.hash [pair]) v) =
      (evalEntries s (depth + 1) pairs v).map (·.map fun entry => .obj [entry]) := by
  induction pairs with
  | nil => rfl
  | cons pair rest ih =>
    rw [List.mapM_cons, ih, eval_hash_single room present, evalEntries]
    cases eval s (depth + 1) pair.2 v with
    | error why => rfl
    | ok w => cases evalEntries s (depth + 1) rest v <;> rfl

/-- In the order of insertion an object is the merger of the objects of its single pairs. -/
theorem hash_merges (room : s.exceeded? depth = none) (present : v.isNull = false)
    (order : s.order = .insertion) (pairs : List (String × Expr)) :
    eval s depth (.hash pairs) v = do
      let objects ← pairs.mapM fun pair => eval s depth (.hash [pair]) v
      return objects.foldl mergeTwo (.obj []) := by
  rw [eval_hash room present, single_objects room present, order]
  cases evalEntries s (depth + 1) pairs v with
  | error why => rfl
  | ok entries => exact congrArg Except.ok (merge_single_entries entries).symm

/-- The pairs come to a failure: the first expression that fails fails so. -/
def FirstFails (eval : Expr → Except EvalError Value) (pairs : List (String × Expr))
    (why : EvalError) : Prop :=
  ∃ front key e behind, pairs = front ++ (key, e) :: behind ∧
    (∀ pair ∈ front, ∃ w, eval pair.2 = .ok w) ∧ eval e = .error why

private theorem entries_fail_iff : evalEntries s depth pairs v = .error why ↔
    FirstFails (eval s depth · v) pairs why := by
  induction pairs with
  | nil =>
    refine iff_of_false nofun ?_
    rintro ⟨front, key, e, behind, parts, -⟩
    exact List.append_ne_nil_of_right_ne_nil front (List.cons_ne_nil _ _) parts.symm
  | cons pair rest ih =>
    obtain ⟨key, e⟩ := pair
    rw [evalEntries]
    cases first : eval s depth e v with
    | error other =>
      change Except.error other = Except.error why ↔ _
      rw [Except.error.injEq]
      constructor
      · rintro rfl
        exact ⟨[], key, e, rest, rfl, by simp, first⟩
      · rintro ⟨front, k, failing, behind, parts, before, fails⟩
        cases front with
        | nil =>
          cases parts
          exact Except.error.inj (first.symm.trans fails)
        | cons pair front =>
          cases parts
          obtain ⟨w, ok⟩ := before _ List.mem_cons_self
          cases first.symm.trans ok
    | ok w =>
      have rest_iff : (do
          let others ← evalEntries s depth rest v
          return (key, w) :: others : Except EvalError (List (String × Value))) = .error why ↔
          evalEntries s depth rest v = .error why := by
        cases evalEntries s depth rest v <;> simp [bind, Except.bind, pure, Except.pure]
      refine rest_iff.trans (ih.trans ⟨?_, ?_⟩)
      · rintro ⟨front, k, failing, behind, rfl, before, fails⟩
        refine ⟨(key, e) :: front, k, failing, behind, rfl, ?_, fails⟩
        exact List.forall_mem_cons.mpr ⟨⟨w, first⟩, before⟩
      · rintro ⟨front, k, failing, behind, parts, before, fails⟩
        cases front with
        | nil =>
          cases parts
          cases first.symm.trans fails
        | cons pair front =>
          cases parts
          exact ⟨front, k, failing, behind, rfl, (List.forall_mem_cons.mp before).2, fails⟩

private theorem hash_fails_iff (room : s.exceeded? depth = none) (present : v.isNull = false) :
    eval s depth (.hash pairs) v = .error why ↔ FirstFails (eval s (depth + 1) · v) pairs why := by
  rw [eval_hash room present, ← entries_fail_iff]
  cases evalEntries s (depth + 1) pairs v <;> simp [Except.map]

/-- Expressions with the same values give the same entries. -/
theorem entries_congr {other : Settings}
    (same : ∀ pair ∈ pairs, eval s depth pair.2 v = eval other depth pair.2 v) :
    evalEntries s depth pairs v = evalEntries other depth pairs v := by
  induction pairs with
  | nil => rfl
  | cons pair rest ih =>
    obtain ⟨first, others⟩ := List.forall_mem_cons.mp same
    rw [evalEntries, evalEntries, first, ih others]

/-- Expressions with the same values give objects with the same entries in both orders of keys. -/
theorem hash_sorted (room : s.exceeded? depth = none) (present : v.isNull = false)
    (same : ∀ pair ∈ pairs, eval { s with order := .insertion } (depth + 1) pair.2 v =
      eval { s with order := .sorted } (depth + 1) pair.2 v)
    (built : eval { s with order := .insertion } depth (.hash pairs) v = .ok object) :
    ∃ inserted sorted : Dict Value, object = .obj inserted ∧
      eval { s with order := .sorted } depth (.hash pairs) v = .ok (.obj sorted) ∧
      sorted.Perm inserted ∧ sorted.keys.Pairwise (· < ·) := by
  have insertionRoom : Settings.exceeded? { s with order := .insertion } depth = none := room
  have sortedRoom : Settings.exceeded? { s with order := .sorted } depth = none := room
  rw [eval_hash insertionRoom present] at built
  rw [eval_hash sortedRoom present, ← entries_congr same]
  cases outcome : evalEntries { s with order := .insertion } (depth + 1) pairs v with
  | error why =>
    rw [outcome] at built
    cases built
  | ok entries =>
    rw [outcome] at built
    cases built
    obtain ⟨sorted, sameObject, perm, ascending⟩ := build_sorted entries
    exact ⟨Dict.ofEntries entries, sorted, rfl, congrArg Except.ok sameObject, perm, ascending⟩

/-- Objects are built by one law. Of two merged objects the second lies over the first, merging is
associative and idempotent, and the empty object changes nothing. An expression that builds an object
fails as the first of its pairs that fails, and otherwise merges the objects of its single pairs from
left to right; with sorted keys it has the same entries, and the keys ascend. -/
theorem objects_overlaid {a b c : Dict Value} (first : a.Distinct) (second : b.Distinct)
    (third : c.Distinct) (room : s.exceeded? depth = none) (present : v.isNull = false)
    (pairs : List (String × Expr)) :
    let value (order : ObjectOrder) (e : Expr) := eval { s with order := order } (depth + 1) e v
    let built (order : ObjectOrder) (pairs : List (String × Expr)) :=
      eval { s with order := order } depth (.hash pairs) v
    (∃ f, Registry.builtins.get? "merge" = some f ∧ ∀ args,
        f.call args = .ok ((args.map ArgumentIn.toValue).foldl mergeTwo (.obj []))) ∧
      (∃ d, mergeTwo (.obj a) (.obj b) = .obj d ∧ Dict.Overlays a b d) ∧
      mergeTwo (mergeTwo (.obj a) (.obj b)) (.obj c) =
        mergeTwo (.obj a) (mergeTwo (.obj b) (.obj c)) ∧
      mergeTwo (.obj []) (.obj a) = .obj a ∧ mergeTwo (.obj a) (.obj []) = .obj a ∧
      mergeTwo (.obj a) (.obj a) = .obj a ∧
      (∀ order why, built order pairs = .error why ↔ FirstFails (value order) pairs why) ∧
      (built .insertion pairs = do
        let objects ← pairs.mapM fun pair => built .insertion [pair]
        return objects.foldl mergeTwo (.obj [])) ∧
      (∀ order key e, built order [(key, e)] = (value order e).map fun w => .obj [(key, w)]) ∧
      ((∀ pair ∈ pairs, value .insertion pair.2 = value .sorted pair.2) →
        ∀ object, built .insertion pairs = .ok object →
          ∃ inserted sorted : Dict Value, object = .obj inserted ∧
            built .sorted pairs = .ok (.obj sorted) ∧ sorted.Perm inserted ∧
            sorted.keys.Pairwise (· < ·)) := by
  intro value built
  have ordered (order : ObjectOrder) : Settings.exceeded? { s with order := order } depth = none :=
    room
  refine ⟨⟨_, rfl, fun args => congrArg Except.ok (merge_from_left args)⟩,
    merge_two_overlays first second, merge_two_assoc first second third,
    merge_two_eq List.nodup_nil first (Dict.overlays_nil_left first),
    merge_two_eq first List.nodup_nil (Dict.overlays_nil_right first),
    merge_two_eq first first (Dict.overlays_self first),
    fun order why => hash_fails_iff (ordered order) present,
    hash_merges (ordered .insertion) present rfl pairs,
    fun order key e => eval_hash_single (ordered order) present (key, e),
    fun same object => hash_sorted room present same⟩

/-- A key of both keeps its first place and takes its last value, in objects that are merged and in
an expression that gives it twice. -/
theorem objects_overlaid_repeated :
    let s : Settings := ⟨.builtins, .insertion, some maxEvalDepth⟩
    let a := [("k", Value.int 1), ("l", .int 2)]
    let b := [("m", Value.int 3), ("k", .int 4)]
    let c := [("l", Value.int 5), ("n", .int 6)]
    let pairs := [("z", .literal (.int 1)), ("a", .literal (.int 2)), ("z", .literal (.int 3))]
    (Dict.Distinct a ∧ Dict.Distinct b ∧ Dict.Distinct c) ∧
      s.exceeded? 0 = none ∧ Value.isNull (.int 0) = false ∧
      mergeTwo (.obj a) (.obj b) = .obj [("k", .int 4), ("l", .int 2), ("m", .int 3)] ∧
      mergeTwo (.obj a) (mergeTwo (.obj b) (.obj c)) =
        .obj [("k", .int 4), ("l", .int 5), ("m", .int 3), ("n", .int 6)] ∧
      eval s 0 (.hash pairs) (.int 0) = .ok (.obj [("z", .int 3), ("a", .int 2)]) := by
  intro s a b c pairs
  have first : Dict.Distinct a := by unfold Dict.Distinct; decide
  have second : Dict.Distinct b := by unfold Dict.Distinct; decide
  have third : Dict.Distinct c := by unfold Dict.Distinct; decide
  have room : s.exceeded? 0 = none := rfl
  have merged : mergeTwo (.obj a) (.obj b) = .obj [("k", .int 4), ("l", .int 2), ("m", .int 3)] := rfl
  obtain ⟨-, -, assoc, -, -, -, -, merges, -⟩ :=
    objects_overlaid first second third room (v := .int 0) rfl pairs
  rw [merged] at assoc
  exact ⟨⟨first, second, third⟩, room, rfl, merged, assoc.symm, merges⟩

end Expr

end JsonQuery
