import JsonQuery.Proofs.LibraryContracts
import JsonQuery.Proofs.ProjectionFusion

/-! The function `map` beside the projections of an array. All of them evaluate one expression on
every item, from the first to the last, and stop at the first failure. They differ only in what they
make of the results: `map` keeps them all, a projection leaves out those that are null, and a filter
takes the items whose results are truthy. -/
namespace JsonQuery

/-! ## One pass over the items -/

/-- The items whose results pass a test. -/
def itemsWith (test : Value → Bool) (items results : List Value) : List Value :=
  ((items.zip results).filter (test ·.2)).map Prod.fst

section

variable {ε : Type} {f : Value → Except ε Value}

/-- A pass that adds something for every result has evaluated all items before it gathers the
results. -/
theorem pass_mapped {γ : Type} (pass : List Value → Except ε γ) (add : Value → Value → γ → γ)
    (gather : List Value → List Value → γ) (ends : pass [] = .ok (gather [] []))
    (step : ∀ item rest, pass (item :: rest) = do
      let result ← f item
      let others ← pass rest
      return add item result others)
    (gathers : ∀ item result rest results,
      gather (item :: rest) (result :: results) = add item result (gather rest results))
    (items : List Value) : pass items = (items.mapM f).map (gather items) := by
  induction items with
  | nil => exact ends
  | cons item rest ih =>
    rw [step, ih, List.mapM_cons]
    cases f item with
    | error why => rfl
    | ok result =>
      cases rest.mapM f with
      | error why => rfl
      | ok others => exact congrArg Except.ok (gathers item result rest others).symm

/-- A pass over the items fails if one of them does. -/
theorem pass_fails_iff (items : List Value) :
    (∃ why, items.mapM f = .error why) ↔ ∃ item ∈ items, ∃ why, f item = .error why := by
  induction items with
  | nil => exact ⟨nofun, nofun⟩
  | cons item rest ih =>
    rw [List.exists_mem_cons_iff, ← ih, List.mapM_cons]
    cases f item with
    | error why => exact ⟨fun _ => .inl ⟨why, rfl⟩, fun _ => ⟨why, rfl⟩⟩
    | ok result =>
      cases rest.mapM f with
      | error why => exact ⟨fun _ => .inr ⟨why, rfl⟩, fun _ => ⟨why, rfl⟩⟩
      | ok others => exact ⟨nofun, nofun⟩

/-- A projection is the mapped items without those that are null. -/
theorem project_mapped (items : List Value) :
    projectItems f items = (items.mapM f).map (·.filter (!·.isNull)) := by
  refine pass_mapped (projectItems f)
    (fun _ result others => if result.isNull then others else result :: others)
    (fun _ results => results.filter (!·.isNull)) rfl (fun _ _ => rfl) ?_ items
  intro _ result _ _
  cases null : result.isNull <;> simp [null]

/-- A selection is the items whose mapped items are truthy. -/
theorem select_mapped (items : List Value) :
    selectItems f items = (items.mapM f).map (itemsWith Value.isTruthy items) := by
  refine pass_mapped (selectItems f)
    (fun item result others => if result.isTruthy then item :: others else others)
    (itemsWith Value.isTruthy) rfl (fun _ _ => rfl) ?_ items
  intro _ result _ _
  cases truthy : result.isTruthy <;> simp [itemsWith, truthy]

end

namespace Expr
open Library

variable {s : Settings} {depth : Nat} {c : Expr} {v : Value} {items : List Value}

/-- Where an evaluation has a value at all, it has the same value at every depth. -/
theorem eval_same_value (conduct : s.functions.Conduct) (ends : conduct.PassesOn)
    (first : eval s depth e v = .ok w) (second : eval s other e v = .ok u) : u = w := by
  obtain same | ⟨_, -, stopped⟩ := eval_plain_or_stopped conduct ends depth 0 e v
  · obtain alike | ⟨_, -, stopped⟩ := eval_plain_or_stopped conduct ends other 0 e v
    · rw [first] at same
      rw [second, ← same] at alike
      exact Except.ok.inj alike
    · cases second.symm.trans stopped
  · cases first.symm.trans stopped

/-! ## Three expressions on the items of an array -/

private theorem project_identity (room : s.exceeded? depth = none) (items : List Value) :
    projectItems (eval s depth .identity) items = .ok (items.filter (!·.isNull)) := by
  have itself : eval s depth .identity = .ok := by
    funext v
    rw [eval, room]
  have whole : items.mapM (.ok : Value → Except EvalError Value) = .ok items := by
    induction items with
    | nil => rfl
    | cons item rest ih =>
      rw [List.mapM_cons, ih]
      rfl
  rw [itself, project_mapped, whole]
  rfl

section

variable (array : eval s (depth + 1) c v = .ok (.arr items)) (p : Expr)
include array

private theorem eval_map (builtin : s.functions.get? "map" = Registry.builtins.get? "map") :
    eval s depth (.call "map" [.reference p, c]) v =
      (items.mapM (eval s (depth + 1) p)).map .arr := by
  have known : s.functions.get? "map" = some ⟨taking [[.reference], [.array]], map⟩ :=
    builtin.trans rfl
  have both : (taking [[.reference], [.array]]).AcceptsAll
      [.expression p (eval s (depth + 1) p), .value (.arr items)] :=
    Signature.accepts_all_two ⟨_, rfl, rfl⟩ ⟨_, rfl, rfl⟩
  rw [eval_accepted (room_around (room_of_ok array)) known
    (.cons .reference (.cons (.value (array_evaluated array) array) .nil)) both rfl]
  change (do return Value.arr (← items.mapM (eval s (depth + 1) p))) = _
  cases items.mapM (eval s (depth + 1) p) <;> rfl

private theorem eval_each_item : eval s depth (.eachItem c p) v =
    (items.mapM (eval s (depth + 1) p)).map fun results =>
      .arr (results.filter (!·.isNull)) := by
  rw [eval, room_around (room_of_ok array), array]
  change (do return Value.arr (← projectItems (eval s (depth + 1) p) items)) = _
  rw [project_mapped]
  cases items.mapM (eval s (depth + 1) p) <;> rfl

private theorem eval_filter : eval s depth (.filter c p .identity) v =
    (items.mapM (eval s (depth + 1) p)).map fun results =>
      .arr ((itemsWith Value.isTruthy items results).filter (!·.isNull)) := by
  have room := room_of_ok array
  rw [eval, room_around room, array]
  change (do
    let kept ← selectItems (eval s (depth + 1) p) items
    return Value.arr (← projectItems (eval s (depth + 1) .identity) kept)) = _
  simp only [select_mapped, project_identity room]
  cases items.mapM (eval s (depth + 1) p) <;> rfl

end

/-- What keeps an array from being found is what all three fail with. -/
theorem map_child_fails (builtin : s.functions.get? "map" = Registry.builtins.get? "map")
    (room : s.exceeded? depth = none) (evaluated : ∀ child, c ≠ .reference child)
    (fails : eval s (depth + 1) c v = .error why) (p : Expr) :
    eval s depth (.call "map" [.reference p, c]) v = .error why ∧
      eval s depth (.eachItem c p) v = .error why ∧
        eval s depth (.filter c p .identity) v = .error why := by
  have known : s.functions.get? "map" = some ⟨taking [[.reference], [.array]], map⟩ :=
    builtin.trans rfl
  have fits : (taking [[.reference], [.array]]).Fits [.reference p, c].length := rfl
  refine ⟨?_, ?_, ?_⟩
  · have place : [Expr.reference p, c] = [.reference p] ++ c :: [] := rfl
    rw [eval_call room, admission_of_admits (.argument known fits place (.cons .reference .nil)
      evaluated fails)]
    rfl
  · rw [eval, room, fails]
    rfl
  · rw [eval, room, fails]
    rfl

private theorem eval_settled (o : Options) (short : depth + e.height ≤ maxEvalDepth) (v : Value) :
    eval o.settings depth e v = eval o.settings.plain 0 e v := by
  refine eval_roomy (s := o.settings) (fun limit limited => ?_) v
  cases limited
  exact short

/-- A value found inside other evaluations is the value of the expression by itself. -/
theorem evaluate_of_inside (o : Options) (conduct : o.functions.Conduct) (ends : conduct.PassesOn)
    (within : e.deeperThan maxEvalDepth = false)
    (inside : eval o.settings depth e v = .ok w) : e.evaluate o v = .ok w := by
  have short := (within_limit_iff e maxEvalDepth).mp within
  have plain : e.evaluate o v = _ := eval_settled o (by omega) v
  obtain same | ⟨_, -, stopped⟩ := eval_plain_or_stopped (s := o.settings) conduct ends depth 0 e v
  · rw [plain, ← same, inside]
  · cases inside.symm.trans stopped

/-- One level below the limit an expression is evaluated inside another as it is by itself. -/
theorem inside_settled (o : Options) (lower : e.deeperThan (maxEvalDepth - 1) = false) :
    eval o.settings 1 e = e.evaluate o := by
  have short := (within_limit_iff e (maxEvalDepth - 1)).mp lower
  have room : 1 + e.height ≤ maxEvalDepth := by
    simp only [maxEvalDepth] at short ⊢
    omega
  funext v
  exact (eval_settled o room v).trans (eval_settled o (by omega) v).symm

/-- Mapping an expression over the items of an array, projecting it, and filtering by it fail
together and alike. Otherwise the mapped items are the results on all items, one for each, the
projection has those that are not null, and the filter has the items that are not null and have a
truthy result. One level below the limit they fail exactly if the expression fails on an item. -/
theorem mapped_with_projections (order : ObjectOrder) {c p : Expr} {v : Value} {items : List Value}
    (within : p.deeperThan maxEvalDepth = false)
    (array : c.evaluate ⟨order, .builtins⟩ v = .ok (.arr items)) :
    let o : Options := ⟨order, .builtins⟩
    let mapped := (Expr.call "map" [.reference p, c]).evaluate o v
    let projected := (Expr.eachItem c p).evaluate o v
    let filtered := (Expr.filter c p .identity).evaluate o v
    ((∃ why, mapped = .error why ∧ projected = .error why ∧ filtered = .error why) ∨
      ∃ results, List.Forall₂ (fun item result => p.evaluate o item = .ok result) items results ∧
        mapped = .ok (.arr results) ∧
        projected = .ok (.arr (results.filter (!·.isNull))) ∧
        filtered = .ok (.arr ((itemsWith Value.isTruthy items results).filter (!·.isNull)))) ∧
    (c.deeperThan (maxEvalDepth - 1) = false → p.deeperThan (maxEvalDepth - 1) = false →
      ((∃ why, mapped = .error why) ↔ ∃ item ∈ items, ∃ why, p.evaluate o item = .error why)) := by
  intro o mapped projected filtered
  have builtin : o.settings.functions.get? "map" = Registry.builtins.get? "map" := rfl
  refine ⟨?agree, ?fail⟩
  case agree =>
    cases inside : eval o.settings 1 c v with
    | error why => exact .inl ⟨why, map_child_fails builtin rfl (array_evaluated array) inside p⟩
    | ok w =>
      have same := eval_same_value conduct conduct_passes_on array inside
      subst same
      have mappedItems : mapped = _ := eval_map inside p builtin
      have projectedItems : projected = _ := eval_each_item inside p
      have filteredItems : filtered = _ := eval_filter inside p
      have each := map_ends (eval o.settings 1 p) items
      rw [mappedItems, projectedItems, filteredItems]
      cases outcome : items.mapM (eval o.settings 1 p) with
      | error why => exact .inl ⟨why, rfl, rfl, rfl⟩
      | ok results =>
        rw [outcome] at each
        refine .inr ⟨results, each.imp fun item result below => ?_, rfl, rfl, rfl⟩
        exact evaluate_of_inside o conduct conduct_passes_on within below
  case fail =>
    intro roomy lower
    have inside : eval o.settings 1 c v = .ok (.arr items) := by rw [inside_settled o roomy, array]
    have mappedItems : mapped = _ := eval_map inside p builtin
    rw [mappedItems, Nat.zero_add, inside_settled o lower, ← pass_fails_iff]
    cases items.mapM (p.evaluate o) <;> simp [Except.map]

/-- An item that is null may have a truthy result, and an item that is not null a null result. -/
theorem mapped_with_projections_nulls :
    let o : Options := ⟨.sorted, .builtins⟩
    let p := Expr.or (.not .current) (.index 0)
    let items := [Value.null, .arr [.null], .arr [.int 0], .arr [.bool false]]
    p.deeperThan maxEvalDepth = false ∧ Expr.current.evaluate o (.arr items) = .ok (.arr items) ∧
      (Expr.call "map" [.reference p, .current]).evaluate o (.arr items) =
        .ok (.arr [.bool true, .null, .int 0, .bool false]) ∧
      (Expr.eachItem .current p).evaluate o (.arr items) =
        .ok (.arr [.bool true, .int 0, .bool false]) ∧
      (Expr.filter .current p .identity).evaluate o (.arr items) = .ok (.arr [.arr [.int 0]]) ∧
      Expr.current.deeperThan (maxEvalDepth - 1) = false ∧
      p.deeperThan (maxEvalDepth - 1) = false ∧
      ¬∃ item ∈ items, ∃ why, p.evaluate o item = .error why := by
  intro o p items
  have roomy : Expr.current.deeperThan (maxEvalDepth - 1) = false := by rfl
  have lower : p.deeperThan (maxEvalDepth - 1) = false := by rfl
  have within : p.deeperThan maxEvalDepth = false := by rfl
  have array : Expr.current.evaluate o (.arr items) = .ok (.arr items) := rfl
  have run : (Expr.call "map" [.reference p, .current]).evaluate o (.arr items) =
      .ok (.arr [.bool true, .null, .int 0, .bool false]) := rfl
  obtain ⟨⟨_, fails, -⟩ | ⟨results, -, mapped, projected, filtered⟩, fail⟩ :=
    mapped_with_projections .sorted within array
  · cases run.symm.trans fails
  · cases run.symm.trans mapped
    refine ⟨within, array, run, projected, filtered, roomy, lower, ?_⟩
    rw [← fail roomy lower]
    exact fun ⟨_, fails⟩ => nomatch run.symm.trans fails

end Expr

end JsonQuery
