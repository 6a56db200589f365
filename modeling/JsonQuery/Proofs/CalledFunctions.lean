import Mathlib
import JsonQuery.Proofs.CountedEvaluation
import JsonQuery.Proofs.Dictionaries
import JsonQuery.Proofs.Nodes

/-! An expression depends on the functions that it calls and on no others. What is called inside a
reference counts as called, since a function may have the reference evaluated; the evaluations that
two registries hand to a function are then one and the same, and so is what it makes of them. -/
namespace JsonQuery

/-- The expression calls the function, perhaps inside a reference. -/
def Expr.Calls (e : Expr) (name : String) : Prop :=
  ∃ args, .call name args ∈ e.nodes

namespace Registry

/-- Both registries have the same function, or none, for every call among the nodes. -/
def AgreeOn (functions other : Registry) (nodes : List Expr) : Prop :=
  ∀ name args, .call name args ∈ nodes → functions.get? name = other.get? name

/-- Registers functions one after another. -/
def registerAll (functions : Registry) (added : List (String × Function)) : Registry :=
  added.foldl (fun r entry => r.register entry.1 entry.2) functions

private theorem agree_inside {nodes others : List Expr} (agree : AgreeOn functions other others)
    (inside : nodes ⊆ others) : AgreeOn functions other nodes :=
  fun name args member => agree name args (inside member)

private theorem get_register_other (functions : Registry) (f : Function)
    (different : added ≠ name) :
    (functions.register added f).get? name = functions.get? name := by
  simp only [get?, register, Dict.find_insert, if_neg different]

/-- Names that are not registered keep what they had. -/
theorem get_register_all (added : List (String × Function))
    (absent : ∀ entry ∈ added, entry.1 ≠ name) :
    ∀ functions : Registry, (functions.registerAll added).get? name = functions.get? name := by
  induction added with
  | nil => exact fun functions => rfl
  | cons entry more ih =>
    intro functions
    have others := ih (fun entry member => absent entry (List.mem_cons_of_mem _ member))
    calc (functions.registerAll (entry :: more)).get? name
      _ = ((functions.register entry.1 entry.2).registerAll more).get? name := rfl
      _ = (functions.register entry.1 entry.2).get? name := others _
      _ = functions.get? name := get_register_other _ _ (absent entry List.mem_cons_self)

private theorem register_all_agrees {nodes : List Expr} (functions : Registry)
    (absent : ∀ entry ∈ added, ∀ args, .call entry.1 args ∉ nodes) :
    AgreeOn (functions.registerAll added) functions nodes := by
  intro name args called
  refine get_register_all added (fun entry member => ?_) functions
  rintro rfl
  exact absent entry member args called

end Registry

namespace Expr
open Registry (AgreeOn agree_inside)

section

variable {functions other : Registry} {order : ObjectOrder} {limit : Option Nat}

/-- Registries that agree on the calls of an expression evaluate it alike, and hand the same
evaluation to the functions that it is an argument of. -/
theorem eval_called (e : Expr) : ∀ depth, AgreeOn functions other e.nodes →
    eval ⟨functions, order, limit⟩ depth e = eval ⟨other, order, limit⟩ depth e := by
  let R := Beside.simulation (fun _ => True) (fun _ => False)
  induction e using needs_induction with | step e below
  intro depth agree
  let s : Settings := ⟨functions, order, limit⟩
  let t : Settings := ⟨other, order, limit⟩
  have inside : AgreeBelow R (· = ·) (eval s (depth + 1)) (eval t (depth + 1)) e := by
    rintro sub needs v _ rfl
    rw [below sub needs (depth + 1) (agree_inside agree (needs_nodes needs))]
    exact beside_same fun _ _ => trivial
  funext v
  have same : Beside (fun _ => True) (fun _ => False) (· = ·)
      (combine order (eval s (depth + 1)) (callAt s (depth + 1)) e v)
      (combine order (eval t (depth + 1)) (callAt t (depth + 1)) e v) := by
    refine simulated_combine R (equal_congruence order) inside (fun _ _ => rfl)
      (fun _ _ _ => equal_spreads) ?_ rfl
    rintro name args rfl v _ rfl
    refine simulated_call R (equal_congruence order)
      (beside_lookup (agree name args (List.mem_cons_self ..)) fun _ => trivial)
      (fun _ _ _ _ => beside_check fun _ _ => trivial) (fun f _ resolved matching matched => ?_)
      inside rfl
    rw [matched_equal (fun _ => id) matched]
    exact beside_same fun _ _ => trivial
  calc eval s depth e v
    _ = guarded s depth (combine order (eval s (depth + 1)) (callAt s (depth + 1)) e v) :=
      eval_combine e v
    _ = guarded t depth (combine order (eval t (depth + 1)) (callAt t (depth + 1)) e v) :=
      congrArg (guarded s depth) (beside_equal (fun _ => id) same)
    _ = eval t depth e v := (eval_combine e v).symm

end

/-- Registries that have the same functions for all calls of an expression, or none, give it the same
value or failure on every value and in every order of objects, and so do two evaluators over them,
whatever each was used for before, if functions reach the evaluator through their arguments alone.
Registering functions that the expression does not call therefore changes nothing. -/
theorem evaluate_called (e : Expr) :
    (∀ functions other : Registry, functions.AgreeOn other e.nodes → ∀ order v,
      let o : Options := ⟨order, functions⟩
      let p : Options := ⟨order, other⟩
      e.evaluate o v = e.evaluate p v ∧
        ∀ (conduct : functions.Conduct) (otherConduct : other.Conduct)
          (history otherHistory : List (Expr × Value)),
          countedEval o.settings conduct.plan e v (counterAfter o.settings conduct.plan history 0) =
            countedEval p.settings otherConduct.plan e v
              (counterAfter p.settings otherConduct.plan otherHistory 0)) ∧
    ∀ (functions : Registry) (added : List (String × Function)),
      (∀ entry ∈ added, ¬e.Calls entry.1) → ∀ order v,
        e.evaluate ⟨order, functions.registerAll added⟩ v = e.evaluate ⟨order, functions⟩ v := by
  have same {functions other : Registry} (agree : functions.AgreeOn other e.nodes)
      (order : ObjectOrder) (v : Value) :
      e.evaluate ⟨order, functions⟩ v = e.evaluate ⟨order, other⟩ v :=
    congrFun (eval_called e 0 agree) v
  refine ⟨?agreeing, ?registered⟩
  case agreeing =>
    intro functions other agree order v o p
    refine ⟨same agree order v, fun conduct otherConduct history otherHistory => ?_⟩
    rw [counter_after_zero (s := o.settings) conduct,
      counter_after_zero (s := p.settings) otherConduct, counted_eval_zero (s := o.settings) conduct,
      counted_eval_zero (s := p.settings) otherConduct]
    exact congrArg (·, 0) (same agree order v)
  case registered =>
    intro functions added uncalled order v
    refine same (Registry.register_all_agrees functions fun entry member args called => ?_) order v
    exact uncalled entry member ⟨args, called⟩

/-- A function that is overridden, and a new one, while others are called inside a reference. -/
theorem evaluate_called_overridden :
    let e := Expr.call "sort_by" [.current, .reference (.call "abs" [.current])]
    let constant : Function := ⟨Library.taking [[.any]], fun _ => .ok .null⟩
    let added := [("length", constant), ("shuffle", constant)]
    let v := Value.arr [.int (-3), .int 2]
    (∀ entry ∈ added, ¬e.Calls entry.1) ∧
      e.evaluate ⟨.sorted, Registry.builtins.registerAll added⟩ v =
        .ok (.arr [.int 2, .int (-3)]) := by
  intro e constant added v
  have uncalled : ∀ entry ∈ added, ¬e.Calls entry.1 := by
    simp [added, e, Calls]
  have result : e.evaluate ⟨.sorted, .builtins⟩ v = .ok (.arr [.int 2, .int (-3)]) := by cbv
  exact ⟨uncalled, ((evaluate_called e).2 .builtins added uncalled .sorted v).trans result⟩

end Expr

end JsonQuery
