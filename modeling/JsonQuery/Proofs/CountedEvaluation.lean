import JsonQuery.Proofs.PlainEvaluation
import JsonQuery.Query

/-! An evaluator that counts the evaluations at work in one place. The counter is shared by the
parts of an expression and by whatever functions have evaluated, it outlives failures, and an
evaluator is used for many expressions one after another. It is always put back, so that every
evaluation stands as deep as its place in the expression says, and the past of the evaluator plays
no part. Only an evaluation that is abandoned puts nothing back: its evaluator is gone with it, and
whoever goes on evaluating does so on a new one. -/
namespace JsonQuery

/-- A computation on an evaluator, which reads and leaves the counter. -/
def Counted (α : Type) : Type :=
  Nat → Except EvalError α × Nat

namespace Counted

instance : Monad Counted where
  pure a := fun depth => (.ok a, depth)
  bind c f := fun depth =>
    match c depth with
    | (.ok a, depth) => f a depth
    | (.error e, depth) => (.error e, depth)

/-- The counter that is found after an outcome, where it was put back. A new evaluator, which takes the
place of one that is gone, counts from zero. -/
def left {α : Type} (outcome : Except EvalError α) (depth : Nat) : Nat :=
  if abandoned outcome then 0 else depth

/-- An outcome that needs no evaluation. -/
def known {α : Type} (outcome : Except EvalError α) : Counted α :=
  fun depth => (outcome, left outcome depth)

/-- One evaluation: the counter is raised for as long as it is at work, and put back to what it was
before. Where the limit is reached it does not begin. -/
def entered (s : Settings) (body : Counted Value) : Counted Value :=
  fun depth =>
    match s.exceeded? depth with
    | some limit => (.error (.depthExceeded limit), depth)
    | none =>
      let outcome := (body (depth + 1)).1
      (outcome, left outcome depth)

end Counted

/-- The steps of a call on an evaluator. What an evaluation leaves in the counter is what the next
step of the function finds there. -/
def Plan.counted (ask : Nat → Value → Counted Value) : Plan → Counted Value
  | .answer outcome => .known outcome
  | .ask index v next => fun depth =>
    let (outcome, depth) := ask index v depth
    if abandoned outcome then (outcome, depth) else (next outcome).counted ask depth

namespace Expr

variable (s : Settings) (plan : String → List Offer → Plan)

mutual

/-- The value of an expression on a current value, where functions go by their plans. -/
def countedEval (e : Expr) (v : Value) : Counted Value :=
  .entered s <|
    match e with
    | .identity => return v
    | .current => return v
    | .field name =>
      match v with
      | .obj entries => return (Dict.find? name entries).getD .null
      | _ => return .null
    | .index n =>
      match v with
      | .arr items => return itemAt items n
      | _ => return .null
    | .slice start stop step =>
      match v with
      | .arr items => return sliceItems items start stop step
      | _ => return .null
    | .literal value => return value
    | .dot left right => do
      let base ← countedEval left v
      if base.isNull then return .null else countedEval right base
    | .bracket left right => do
      let base ← countedEval left v
      countedEval right base
    | .flatten child projection => do
      match ← countedEval child v with
      | .arr items =>
        return .arr (← projectItems (countedEval projection) (flattenItems items))
      | _ => return .null
    | .eachItem child projection => do
      match ← countedEval child v with
      | .arr items => return .arr (← projectItems (countedEval projection) items)
      | _ => return .null
    | .eachValue child projection => do
      match ← countedEval child v with
      | .obj entries =>
        return .arr (← projectItems (countedEval projection) (Dict.values entries))
      | _ => return .null
    | .filter child predicate projection => do
      match ← countedEval child v with
      | .arr items =>
        let kept ← selectItems (countedEval predicate) items
        return .arr (← projectItems (countedEval projection) kept)
      | _ => return .null
    | .pipe left right => do
      let base ← countedEval left v
      countedEval right base
    | .or left right => do
      let first ← countedEval left v
      if first.isTruthy then return first else countedEval right v
    | .and left right => do
      let first ← countedEval left v
      if first.isTruthy then countedEval right v else return first
    | .not child => do
      let result ← countedEval child v
      return .bool (!result.isTruthy)
    | .compare op left right => do
      let a ← countedEval left v
      let b ← countedEval right v
      return compareValues op a b
    | .list elements =>
      if v.isNull then return .null
      else do return .arr (← countedList elements v)
    | .hash entries =>
      if v.isNull then return .null
      else do return buildObject s.order (← countedEntries entries v)
    | .call name args => do
      let f ← Counted.known (s.functions.lookup name)
      Counted.known ((f.signature.checkArity name args.length).mapError .call)
      let resolved ← countedArguments args v
      Counted.known ((f.signature.checkTypes name resolved).mapError .call)
      (plan name (resolved.map ArgumentIn.offer)).counted (evaluationAt resolved)
    | .reference _ => return .null

/-- The values of expressions in their order. -/
def countedList (es : List Expr) (v : Value) : Counted (List Value) :=
  match es with
  | [] => return []
  | e :: rest => do
    let first ← countedEval e v
    let others ← countedList rest v
    return first :: others

/-- The values of the expressions behind keys, in their order. -/
def countedEntries (entries : List (String × Expr)) (v : Value) :
    Counted (List (String × Value)) :=
  match entries with
  | [] => return []
  | (key, e) :: rest => do
    let first ← countedEval e v
    let others ← countedEntries rest v
    return (key, first) :: others

/-- The arguments of a call. A reference is handed on with the evaluator. -/
def countedArguments (args : List Expr) (v : Value) : Counted (List (ArgumentIn Counted)) :=
  match args with
  | [] => return []
  | .reference e :: rest => do
    let others ← countedArguments rest v
    return .expression e (countedEval e) :: others
  | e :: rest => do
    let first ← countedEval e v
    let others ← countedArguments rest v
    return .value first :: others

end

/-- The counter that evaluations leave which take place one after another. -/
def counterAfter : List (Expr × Value) → Nat → Nat
  | [], depth => depth
  | (e, v) :: later, depth => counterAfter later (countedEval s plan e v depth).2

/-! ## The evaluation, node by node -/

section

variable {s : Settings} {plan : String → List Offer → Plan}

private theorem counted_list_each (es : List Expr) (v : Value) :
    countedList s plan es v = evaluateEach (countedEval s plan · v) es := by
  induction es with
  | nil => rfl
  | cons e rest ih => rw [countedList, evaluateEach, ih]

private theorem counted_entries_each (entries : List (String × Expr)) (v : Value) :
    countedEntries s plan entries v = evaluateEntries (countedEval s plan · v) entries := by
  induction entries with
  | nil => rfl
  | cons entry rest ih => rw [countedEntries, evaluateEntries, ih]

private theorem counted_arguments_each (args : List Expr) (v : Value) :
    countedArguments s plan args v = resolveEach (countedEval s plan) v args := by
  induction args with
  | nil => rfl
  | cons e rest ih =>
    cases e with
    | reference child => rw [countedArguments, resolveEach, ih]
    | _ => simp only [countedArguments, resolveEach, ih]

/-- A function goes by its plan. -/
def countedCall (s : Settings) (plan : String → List Offer → Plan) :
    String → List Expr → Value → Counted Value :=
  callIn Counted.known s.functions
    (fun name _ resolved =>
      (plan name (resolved.map ArgumentIn.offer)).counted (evaluationAt resolved))
    (countedEval s plan)

private theorem counted_combine (e : Expr) (v : Value) : countedEval s plan e v =
    .entered s (combine s.order (countedEval s plan) (countedCall s plan) e v) := by
  unfold countedEval
  refine congrArg _ ?_
  cases e with
  | field | index | slice => cases v <;> rfl
  | list elements => simp only [counted_list_each, combine]
  | hash entries => simp only [counted_entries_each, combine]
  | call name args => simp only [counted_arguments_each, combine, countedCall, callIn]
  | flatten child projection | eachItem child projection | eachValue child projection
  | filter child predicate projection =>
    simp only [combine]
    refine bind_congr fun base => ?_
    cases base <;> rfl
  | _ => rfl

end

end Expr

/-- The evaluator has put the counter back, and has the outcome of an evaluation that keeps none. -/
inductive Restores {α β : Type} (agree : α → β → Prop) (depth : Nat) :
    Except EvalError α × Nat → Except EvalError β → Prop where
  | value (same : agree a b) : Restores agree depth (.ok a, depth) (.ok b)
  | failure : Restores agree depth (.error e, Counted.left (.error e : Except EvalError α) depth)
      (.error e)

section

variable {α β γ δ : Type} {agree : α → β → Prop} {join : γ → δ → Prop} {depth : Nat}

private theorem restores_iff {ran : Except EvalError α × Nat} {outcome : Except EvalError α} :
    Restores (· = ·) depth ran outcome ↔ ran = (outcome, Counted.left outcome depth) := by
  constructor
  · rintro (same | _)
    · rw [same]
      rfl
    · rfl
  · rintro rfl
    cases outcome with
    | ok a => exact .value rfl
    | error e => exact .failure

private theorem restores_bind {c : Counted α} {outcome : Except EvalError β} {f : α → Counted γ}
    {g : β → Except EvalError δ} (first : Restores agree depth (c depth) outcome)
    (next : ∀ a b, agree a b → Restores join depth (f a depth) (g b)) :
    Restores join depth ((c >>= f) depth) (outcome >>= g) := by
  generalize ran : c depth = result at first
  cases first with
  | @value a b same =>
    have goes : (c >>= f) depth = f a depth := by
      simp only [Bind.bind, ran]
    rw [goes]
    exact next _ _ same
  | @failure e =>
    have ends : (c >>= f) depth = (.error e, Counted.left (.error e : Except EvalError γ) depth) := by
      simp only [Bind.bind, ran]
      rfl
    rw [ends]
    exact .failure

variable (depth) in
/-- Computations that find the counter at one and the same place. -/
def Restores.simulation : Simulation Counted (Except EvalError) where
  holds agree c outcome := Restores agree depth (c depth) outcome
  value := .value
  next := restores_bind

private theorem restores_known (outcome : Except EvalError α) :
    Restores (· = ·) depth (Counted.known outcome depth) outcome :=
  restores_iff.mpr rfl

private theorem restores_lookup (functions : Registry) (name : String) :
    Restores (fun f g => f = g ∧ functions.get? name = some f) depth
      (Counted.known (functions.lookup name) depth) (functions.lookup name) := by
  unfold Registry.lookup Counted.known
  cases known : functions.get? name with
  | none => exact .failure
  | some f => exact .value ⟨rfl, rfl⟩

/-- The guard puts the counter back, whatever the evaluation behind it has left. -/
theorem restores_entered {s : Settings} {body : Counted Value} {outcome : Except EvalError Value}
    (inside : Restores (· = ·) (depth + 1) (body (depth + 1)) outcome) :
    Restores (· = ·) depth (Counted.entered s body depth) (Expr.guarded s depth outcome) := by
  unfold Counted.entered Expr.guarded
  cases s.exceeded? depth with
  | some limit => exact .failure
  | none => exact restores_iff.mpr (by rw [restores_iff.mp inside])

/-- A function that finds the counter put back after each evaluation leaves it so. -/
theorem restores_plan {ask : Nat → Value → Counted Value}
    {evaluation : Nat → Value → Except EvalError Value}
    (each : ∀ index v, Restores (· = ·) depth (ask index v depth) (evaluation index v))
    (plan : Plan) : Restores (· = ·) depth (plan.counted ask depth) (plan.outcome evaluation) := by
  induction plan with
  | answer outcome => exact restores_known outcome
  | ask index v next ih =>
    simp only [Plan.counted, Plan.outcome, restores_iff.mp (each index v)]
    by_cases gone : abandoned (evaluation index v) = true
    · simp only [if_pos gone]
      exact restores_iff.mpr rfl
    · have back : Counted.left (evaluation index v) depth = depth := if_neg gone
      simp only [if_neg gone, back]
      exact ih _

end

namespace Expr

section

variable {s : Settings} (conduct : s.functions.Conduct)

/-- The counter may as well be the place in the expression. -/
theorem counted_restores (e : Expr) : ∀ depth v,
    Restores (· = ·) depth (countedEval s conduct.plan e v depth) (eval s depth e v) := by
  induction e using needs_induction with | step e below
  intro depth v
  have inside : AgreeBelow (Restores.simulation (depth + 1)) (· = ·) (countedEval s conduct.plan)
      (eval s (depth + 1)) e := by
    rintro sub needs v _ rfl
    exact below sub needs (depth + 1) v
  rw [counted_combine, eval_combine]
  refine restores_entered ?_
  refine simulated_combine (Restores.simulation (depth + 1)) (equal_congruence s.order) inside
    (fun _ _ => rfl) (fun _ _ _ => equal_spreads) ?_ rfl
  rintro name args rfl v _ rfl
  refine simulated_call (Restores.simulation (depth + 1)) (equal_congruence s.order)
    (restores_lookup s.functions name) (fun _ _ outcome _ => restores_known _) ?_ inside rfl
  intro f known resolved plainResolved matched
  rw [conduct.follows name f known plainResolved, ← matched_offers matched]
  exact restores_plan (matched_evaluation (Restores.simulation (depth + 1)) matched) _

/-- One evaluation on an evaluator is the evaluation at the depth that the counter says, and leaves
the counter as it was. -/
theorem counted_eval_eq (e : Expr) (v : Value) (depth : Nat) :
    countedEval s conduct.plan e v depth =
      (eval s depth e v, Counted.left (eval s depth e v) depth) :=
  restores_iff.mp (counted_restores conduct e depth v)

/-- Evaluations that are not inside others leave the counter at zero, one after another. -/
theorem counted_eval_zero (e : Expr) (v : Value) :
    countedEval s conduct.plan e v 0 = (eval s 0 e v, 0) := by
  rw [counted_eval_eq, Counted.left, ite_self]

theorem counter_after_zero (history : List (Expr × Value)) :
    counterAfter s conduct.plan history 0 = 0 := by
  induction history with
  | nil => rfl
  | cons call later ih => rw [counterAfter, counted_eval_zero, ih]

end

/-- Whatever an evaluator was used for before, an expression within the limit has its plain outcome,
and the counter is back at zero. The failure at the limit does not occur unless a function makes it
up. A deeper expression has its plain outcome or that failure when the functions are those of the
library. -/
theorem counted_eval_refines :
    (∀ (o : Options) (conduct : o.functions.Conduct) (history : List (Expr × Value)) (e : Expr)
      (v : Value), e.deeperThan maxEvalDepth = false →
        countedEval o.settings conduct.plan e v (counterAfter o.settings conduct.plan history 0) =
            (e.evaluate o v, 0) ∧
          e.evaluate o v = eval o.settings.plain 0 e v ∧
          (conduct.Candid → ¬Exceeds (e.evaluate o v))) ∧
    ∀ (order : ObjectOrder) (history : List (Expr × Value)) (e : Expr) (v : Value),
      let o : Options := ⟨order, .builtins⟩
      countedEval o.settings Library.plan e v (counterAfter o.settings Library.plan history 0) =
          (e.evaluate o v, 0) ∧
        (e.evaluate o v = eval o.settings.plain 0 e v ∨
          e.evaluate o v = .error (.depthExceeded maxEvalDepth)) := by
  have counted (o : Options) (conduct : o.functions.Conduct) (history : List (Expr × Value))
      (e : Expr) (v : Value) :
      countedEval o.settings conduct.plan e v (counterAfter o.settings conduct.plan history 0) =
        (e.evaluate o v, 0) := by
    rw [counter_after_zero (s := o.settings) conduct, counted_eval_zero (s := o.settings) conduct]
    rfl
  refine ⟨?shallow, ?library⟩
  case shallow =>
    intro o conduct history e v shallow
    have fits : ∀ limit, o.settings.limit = some limit → 0 + e.height ≤ limit := by
      intro limit limited
      cases limited
      simpa using (within_limit_iff e maxEvalDepth).mp shallow
    obtain ⟨same, honest⟩ := eval_plain (s := o.settings) conduct fits 0 v
    have plain : e.evaluate o v = eval o.settings.plain 0 e v := same
    exact ⟨counted o conduct history e v, plain, fun candid => plain ▸ honest candid⟩
  case library =>
    intro order history e v o
    refine ⟨counted o Library.conduct history e v, ?_⟩
    obtain same | ⟨limit, limited, stopped⟩ :=
      eval_plain_or_stopped (s := o.settings) Library.conduct Library.conduct_passes_on 0 0 e v
    · exact .inl same
    · cases limited
      exact .inr stopped

/-- A failed call and an evaluation that was stopped at the limit leave no trace. -/
theorem counted_eval_refines_mapped :
    let history := [(.call "abs" [.current], .str "a"), (Nat.repeat .not 300 .current, .null)]
    let e := Expr.call "map" [.reference (.field "a"), .current]
    let v := Value.arr [.obj [("a", .int 1)]]
    let s := Options.standard.settings
    e.deeperThan maxEvalDepth = false ∧ Library.conduct.Candid ∧
      countedEval s Library.plan e v (counterAfter s Library.plan history 0) =
          (.ok (.arr [.int 1]), 0) ∧
        ¬Exceeds (e.evaluate .standard v) := by
  intro history e v s
  have shallow : e.deeperThan maxEvalDepth = false := by rfl
  have plain : eval s.plain 0 e v = .ok (.arr [.int 1]) := by rfl
  obtain ⟨counted, same, honest⟩ :=
    counted_eval_refines.1 .standard Library.conduct history e v shallow
  exact ⟨shallow, Library.conduct_candid, counted.trans (by rw [same, plain]),
    honest Library.conduct_candid⟩

/-- A function that is not candid reports the limit where nothing is deep. -/
theorem evaluate_exceeds_uncandid :
    let f : Function := ⟨Library.taking [], fun _ => .error (.depthExceeded maxEvalDepth)⟩
    let o : Options := ⟨.insertion, Registry.empty.register "f" f⟩
    let e := Expr.call "f" []
    Nonempty o.functions.Conduct ∧ e.deeperThan maxEvalDepth = false ∧
      e.evaluate o .null = .error (.depthExceeded maxEvalDepth) := by
  intro f o e
  have only : ∀ name g, o.functions.get? name = some g → g = f := by
    intro name g known
    have listed : (name, g) ∈ [("f", f)] := Dict.mem_of_find? known
    exact congrArg Prod.snd (List.mem_singleton.mp listed)
  refine ⟨⟨⟨fun _ _ => .answer (f.call []), ?_⟩⟩, by decide, by rfl⟩
  rintro name g known args
  rw [only name g known]
  rfl

end Expr

end JsonQuery
