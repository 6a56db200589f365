import JsonQuery.Function.Library
import JsonQuery.Proofs.Dictionaries
import JsonQuery.Proofs.ParallelEvaluation

/-! How functions go about their calls. A function looks at its arguments and answers, or it has the
expression of an argument evaluated and goes on with the outcome, unless that evaluation is abandoned
and the call with it. It reaches the evaluator in no other way, so that a call can be followed step by
step, whatever the evaluations do. -/
namespace JsonQuery

/-- What a function sees of an argument before anything is evaluated for it. -/
inductive Offer where
  | value (v : Value)
  | expression (e : Expr)

def ArgumentIn.offer {m : Type → Type} : ArgumentIn m → Offer
  | .value v => .value v
  | .expression e _ => .expression e

/-- The argument as far as it can be seen. Evaluating its expression tells nothing. -/
def Offer.argument : Offer → Argument
  | .value v => .value v
  | .expression e => .expression e fun _ => .ok .null

/-- The steps of one call. Failures of an evaluation come back to the function, which may go on. An
evaluation that is abandoned never comes back. -/
inductive Plan where
  | answer (outcome : Except EvalError Value)
  | ask (index : Nat) (v : Value) (next : Except EvalError Value → Plan)

/-- The failure of an evaluation that has reached its limit. -/
def Exceeds {α : Type} (outcome : Except EvalError α) : Prop :=
  ∃ limit, outcome = .error (.depthExceeded limit)

/-- Whether an evaluation was abandoned. -/
def abandoned {α : Type} : Except EvalError α → Bool
  | .ok _ => false
  | .error e => e = .disorder

private theorem abandoned_iff {α : Type} {outcome : Except EvalError α} :
    abandoned outcome = true ↔ outcome = .error .disorder := by
  cases outcome <;> simp [abandoned]

namespace Plan

/-- The answer that a plan comes to when the evaluations have these outcomes. -/
def outcome (evaluation : Nat → Value → Except EvalError Value) : Plan → Except EvalError Value
  | .answer outcome => outcome
  | .ask index v next =>
    let result := evaluation index v
    if abandoned result then result else (next result).outcome evaluation

/-- A plan that gives up with its evaluation need not be told that it was abandoned. -/
theorem outcome_ask {evaluation : Nat → Value → Except EvalError Value}
    (ends : next (.error .disorder) = .answer (.error .disorder)) :
    (ask index v next).outcome evaluation = (next (evaluation index v)).outcome evaluation := by
  rw [outcome]
  split
  · rename_i gone
    rw [abandoned_iff] at gone
    rw [gone, ends, outcome]
  · rfl

/-- The plan never claims by itself that a limit has been reached. -/
def Candid : Plan → Prop
  | .answer outcome => ¬Exceeds outcome
  | .ask _ _ next => ∀ outcome, ¬Exceeds outcome → (next outcome).Candid

/-- The plan ends where an evaluation has reached its limit. -/
def PassesOn : Plan → Prop
  | .answer _ => True
  | .ask _ _ next =>
    (∀ limit, next (.error (.depthExceeded limit)) = .answer (.error (.depthExceeded limit))) ∧
      ∀ outcome, (next outcome).PassesOn

end Plan

section

variable {m n : Type → Type} [Monad m] [Monad n]

/-- The evaluation of the argument at an index. An argument without an expression gives null. -/
def evaluationAt (args : List (ArgumentIn m)) (index : Nat) (v : Value) : m Value :=
  match args[index]?.bind ArgumentIn.eval? with
  | some eval => eval v
  | none => return .null

omit [Monad m] [Monad n] in
theorem matched_offers {ends : m Value → n Value → Prop}
    (matched : List.Forall₂ (ArgumentsMatch (· = ·) ends) args others) :
    args.map ArgumentIn.offer = others.map ArgumentIn.offer := by
  induction matched with
  | nil => rfl
  | cons first _ ih =>
    rw [List.map_cons, List.map_cons, ih]
    cases first with
    | value same => rw [same]; rfl
    | expression => rfl

theorem matched_evaluation (R : Simulation m n)
    (matched : List.Forall₂ (ArgumentsMatch (· = ·) (R.holds (· = ·))) args others) (index : Nat)
    (v : Value) : R.holds (· = ·) (evaluationAt args index v) (evaluationAt others index v) := by
  induction matched generalizing index with
  | nil => exact R.value rfl
  | cons first _ ih =>
    cases index with
    | zero =>
      cases first with
      | value => exact R.value rfl
      | expression each => exact each v v rfl
    | succ index => exact ih index

end

/-- The call of a function is the outcome of a plan that knows the arguments only by sight. -/
def Function.Follows (f : Function) (plan : List Offer → Plan) : Prop :=
  ∀ args, f.call args = (plan (args.map ArgumentIn.offer)).outcome (evaluationAt args)

/-- Plans for all functions of a registry. -/
structure Registry.Conduct (r : Registry) where
  plan : String → List Offer → Plan
  follows : ∀ name f, r.get? name = some f → f.Follows (plan name)

/-- No function makes up a failure of the evaluator. -/
def Registry.Conduct.Candid {r : Registry} (conduct : r.Conduct) : Prop :=
  ∀ name f, r.get? name = some f → ∀ offers, (conduct.plan name offers).Candid

/-- Every function hands on the failure of an evaluation that has reached its limit. -/
def Registry.Conduct.PassesOn {r : Registry} (conduct : r.Conduct) : Prop :=
  ∀ name f, r.get? name = some f → ∀ offers, (conduct.plan name offers).PassesOn

/-- What is registered comes from the list of functions. -/
theorem builtin_listed (known : Registry.builtins.get? name = some f) :
    (name, f) ∈ Library.functions := by
  rcases Dict.mem_insertAll _ _ (Dict.mem_of_find? known) with none | listed
  · cases none
  · exact listed

namespace Library

/-- The function depends on the values of its arguments alone, and never fails. -/
def OfValues (f : Function) : Prop :=
  ∃ g : List Value → Value, ∀ args, f.call args = .ok (g (args.map ArgumentIn.toValue))

/-- The function depends on the values of its arguments alone, and makes up no failure of the
evaluator. -/
def Detached (f : Function) : Prop :=
  ∃ g : List Value → Except EvalError Value,
    (∀ args, f.call args = g (args.map ArgumentIn.toValue)) ∧ ∀ values, ¬Exceeds (g values)

/-- The value at an index, null when there is none. -/
def nth (values : List Value) (index : Nat) : Value :=
  values[index]?.getD .null

theorem valueAt_nth (args : List Argument) (index : Nat) :
    valueAt args index = nth (args.map ArgumentIn.toValue) index := by
  simp [valueAt, nth]

theorem unary_of_values (types : List DataType) (f : Value → Value) : OfValues (unary types f) :=
  ⟨fun values => f (nth values 0), fun args => by simp only [unary, valueAt_nth]⟩

theorem binary_of_values (first second : List DataType) (f : Value → Value → Value) :
    OfValues (binary first second f) :=
  ⟨fun values => f (nth values 0) (nth values 1), fun args => by simp only [binary, valueAt_nth]⟩

theorem items_of_values (types : List DataType) (f : List Value → Value) :
    OfValues (ofItems types f) :=
  ⟨fun values => f ((nth values 0).toItems?.getD []),
    fun args => by simp only [ofItems, itemsAt, valueAt_nth]⟩

theorem join_of_values (s : Signature) :
    OfValues ⟨s, fun args => .ok (join (valueAt args 0) (itemsAt args 1))⟩ :=
  ⟨fun values => join (nth values 0) ((nth values 1).toItems?.getD []),
    fun args => by simp only [itemsAt, valueAt_nth]⟩

theorem merge_of_values (s : Signature) : OfValues ⟨s, fun args => .ok (merge args)⟩ :=
  ⟨fun values => .obj (values.foldl (fun d v => Dict.insertAll d (v.toEntries?.getD [])) []),
    fun args => by simp only [merge, List.foldl_map]⟩

theorem not_null_of_values (s : Signature) : OfValues ⟨s, fun args => .ok (notNull args)⟩ :=
  ⟨fun values => (values.find? (!·.isNull)).getD .null, fun args => by simp only [notNull]⟩

/-- The plan of a function that has nothing evaluated. -/
def answering (f : Function) (offers : List Offer) : Plan :=
  .answer (f.call (offers.map Offer.argument))

/-- Has the expression at an index evaluated on every item. The first failure is the answer. -/
def askEach (index : Nat) : List Value → (List Value → Plan) → Plan
  | [], next => next []
  | item :: rest, next =>
    .ask index item fun outcome =>
      match outcome with
      | .ok v => askEach index rest fun others => next (v :: others)
      | .error e => .answer (.error e)

/-- Has the keys of all items evaluated. The first failure or unfit key is the answer. -/
def askKeys (function : String) (index : Nat) :
    (required : Option DataType) → List Value → (List (Value × Value) → Plan) → Plan
  | _, [], next => next []
  | required, item :: rest, next =>
    .ask index item fun outcome =>
      match outcome with
      | .ok key =>
        let expected := required.elim [.number, .string] ([·])
        match keyType? key with
        | some t =>
          if t ∈ expected then
            askKeys function index (some t) rest fun pairs => next ((key, item) :: pairs)
          else .answer (.error (.call (.invalidType function 1 expected key.typeName)))
        | none => .answer (.error (.call (.invalidType function 1 expected key.typeName)))
      | .error e => .answer (.error e)

/-- Goes on if there is an expression at the index. -/
def askable (function : String) (offers : List Offer) (index : Nat) (plan : Plan) : Plan :=
  match expressionAt function (offers.map Offer.argument) index with
  | .ok _ => plan
  | .error e => .answer (.error e)

def mapPlan (offers : List Offer) : Plan :=
  askable "map" offers 0 <|
    askEach 0 (itemsAt (offers.map Offer.argument) 1) fun results => .answer (.ok (.arr results))

/-- The plan of a function that works on items with their keys. -/
def keyedPlan (function : String) (finish : List (Value × Value) → Except EvalError Value)
    (offers : List Offer) : Plan :=
  askable function offers 1 <|
    askKeys function 1 none (itemsAt (offers.map Offer.argument) 0) fun pairs =>
      .answer (finish pairs)

/-- How the function of a name goes about its calls. -/
def plan (name : String) (offers : List Offer) : Plan :=
  if name = "map" then mapPlan offers
  else if name = "max_by" then
    keyedPlan "max_by" (fun pairs => .ok <| ((lastGreatest? lessByKey pairs).map Prod.snd).getD .null)
      offers
  else if name = "min_by" then
    keyedPlan "min_by" (fun pairs => .ok <| ((firstLeast? lessByKey pairs).map Prod.snd).getD .null)
      offers
  else if name = "sort_by" then
    keyedPlan "sort_by" (fun pairs => do return .arr ((← ascending lessByKey pairs).map Prod.snd))
      offers
  else
    match Registry.builtins.get? name with
    | some f => answering f offers
    | none => .answer (.error (.unknownFunction name))

private theorem offered_values (args : List Argument) :
    ((args.map ArgumentIn.offer).map Offer.argument).map ArgumentIn.toValue =
      args.map ArgumentIn.toValue := by
  simp only [List.map_map]
  refine List.map_congr_left fun a _ => ?_
  cases a <;> rfl

private theorem items_offered (args : List Argument) (index : Nat) :
    itemsAt ((args.map ArgumentIn.offer).map Offer.argument) index = itemsAt args index := by
  simp only [itemsAt, valueAt_nth, offered_values]

private theorem detached_follows (detached : Detached f) : f.Follows (answering f) := by
  obtain ⟨g, computes, -⟩ := detached
  intro args
  simp only [answering, Plan.outcome, computes, offered_values]

private theorem ask_each_outcome (evaluation : Nat → Value → Except EvalError Value) (index : Nat)
    (items : List Value) :
    ∀ next, (askEach index items next).outcome evaluation =
      (do (next (← items.mapM (evaluation index))).outcome evaluation) := by
  induction items with
  | nil => exact fun next => rfl
  | cons item rest ih =>
    intro next
    rw [askEach, Plan.outcome_ask (by rfl), List.mapM_cons]
    cases evaluation index item with
    | error e => rfl
    | ok v =>
      simp only [ih]
      cases rest.mapM (evaluation index) <;> rfl

private theorem ask_keys_outcome (evaluation : Nat → Value → Except EvalError Value)
    (function : String)
    (index : Nat) (items : List Value) :
    ∀ required next, (askKeys function index required items next).outcome evaluation =
      (do (next (← keyed function (evaluation index) required items)).outcome evaluation) := by
  induction items with
  | nil => exact fun required next => rfl
  | cons item rest ih =>
    intro required next
    rw [askKeys, Plan.outcome_ask (by rfl), keyed]
    cases evaluation index item with
    | error e => rfl
    | ok key =>
      cases kind : keyType? key with
      | none => simp only [kind, bind, Except.bind, Plan.outcome]
      | some t =>
        by_cases fits : t ∈ required.elim [DataType.number, .string] ([·])
        · simp only [kind, if_pos fits, ih, bind, Except.bind]
          cases keyed function (evaluation index) (some t) rest <;> rfl
        · simp only [kind, if_neg fits, bind, Except.bind, Plan.outcome]

/-- Whether there is an expression shows in the arguments by sight. -/
theorem askable_outcome (function : String) (args : List Argument) (index : Nat) (plan : Plan) :
    (askable function (args.map ArgumentIn.offer) index plan).outcome (evaluationAt args) =
      (do
        let _ ← expressionAt function args index
        plan.outcome (evaluationAt args)) := by
  have seen : ((args.map ArgumentIn.offer).map Offer.argument)[index]? =
      args[index]?.map (Offer.argument ∘ ArgumentIn.offer) := by
    simp
  have same := congrArg (nth · index) (offered_values args)
  simp only [← valueAt_nth] at same
  unfold askable expressionAt
  rw [seen, same]
  cases args[index]? with
  | none => rfl
  | some a => cases a <;> rfl

private theorem evaluation_of_expression (known : expressionAt function args index = .ok eval) :
    evaluationAt args index = eval := by
  funext v
  unfold expressionAt at known
  unfold evaluationAt
  cases found : args[index]?.bind ArgumentIn.eval? with
  | none =>
    rw [found] at known
    cases known
  | some answer =>
    rw [found] at known
    exact congrFun (Except.ok.inj known) v

private theorem map_follows (s : Signature) : (Function.mk s map).Follows mapPlan := by
  intro args
  rw [mapPlan, askable_outcome]
  simp only [map, ask_each_outcome, items_offered]
  cases known : expressionAt "map" args 0 with
  | error e => rfl
  | ok eval =>
    rw [evaluation_of_expression known]
    rfl

private theorem keyed_follows (s : Signature) (function : String)
    (finish : List (Value × Value) → Except EvalError Value) :
    (Function.mk s fun args => keyedItems function args >>= finish).Follows
      (keyedPlan function finish) := by
  intro args
  rw [keyedPlan, askable_outcome]
  simp only [keyedItems, ask_keys_outcome, items_offered]
  cases known : expressionAt function args 1 with
  | error e => rfl
  | ok eval =>
    rw [evaluation_of_expression known]
    rfl

private theorem exceeds_error {α : Type} {e : EvalError} :
    Exceeds (.error e : Except EvalError α) ↔ ∃ limit, e = .depthExceeded limit := by
  simp [Exceeds]

theorem not_exceeds_ok {α : Type} (a : α) : ¬Exceeds (.ok a : Except EvalError α) := by
  simp [Exceeds]

/-- A plan that stops at every failure and makes up no failure of the evaluator. -/
def Upright (plan : Plan) : Prop :=
  plan.Candid ∧ plan.PassesOn

private theorem upright_answer {outcome : Except EvalError Value} (own : ¬Exceeds outcome) :
    Upright (.answer outcome) :=
  ⟨own, trivial⟩

private theorem upright_each (index : Nat) (items : List Value) :
    ∀ next, (∀ results, Upright (next results)) → Upright (askEach index items next) := by
  induction items with
  | nil => exact fun next upright => upright []
  | cons item rest ih =>
    intro next upright
    have others (v : Value) := ih (fun results => next (v :: results)) fun _ => upright _
    constructor
    · intro outcome allowed
      cases outcome with
      | ok v => exact (others v).1
      | error e => exact allowed
    · refine ⟨fun limit => rfl, fun outcome => ?_⟩
      cases outcome with
      | ok v => exact (others v).2
      | error e => trivial

private theorem upright_keys (function : String) (index : Nat) (items : List Value) :
    ∀ required next, (∀ pairs, Upright (next pairs)) →
      Upright (askKeys function index required items next) := by
  induction items with
  | nil => exact fun required next upright => upright []
  | cons item rest ih =>
    intro required next upright
    have went (key : Value) : Upright (let expected := required.elim [.number, .string] ([·])
        match keyType? key with
        | some t =>
          if t ∈ expected then
            askKeys function index (some t) rest fun pairs => next ((key, item) :: pairs)
          else .answer (.error (.call (.invalidType function 1 expected key.typeName)))
        | none => .answer (.error (.call (.invalidType function 1 expected key.typeName)))) := by
      have unfit (e : CallError) : Upright (.answer (.error (.call e))) :=
        upright_answer (by simp [exceeds_error])
      cases keyType? key with
      | none => exact unfit _
      | some t =>
        dsimp only
        split
        · exact ih _ _ fun _ => upright _
        · exact unfit _
    constructor
    · intro outcome allowed
      cases outcome with
      | ok key => exact (went key).1
      | error e => exact allowed
    · refine ⟨fun limit => rfl, fun outcome => ?_⟩
      cases outcome with
      | ok key => exact (went key).2
      | error e => trivial

private theorem upright_askable {steps : Plan} (upright : Upright steps) :
    Upright (askable function offers index steps) := by
  unfold askable
  split
  · exact upright
  · rename_i e refused
    refine upright_answer ?_
    unfold expressionAt at refused
    split at refused
    · cases refused
    · cases refused
      simp [exceeds_error]

private theorem upright_map (offers : List Offer) : Upright (mapPlan offers) :=
  upright_askable (upright_each _ _ _ fun _ => upright_answer (not_exceeds_ok _))

private theorem upright_keyed (function : String)
    {finish : List (Value × Value) → Except EvalError Value}
    (own : ∀ pairs, ¬Exceeds (finish pairs)) (offers : List Offer) :
    Upright (keyedPlan function finish offers) :=
  upright_askable (upright_keys _ _ _ _ _ fun _ => upright_answer (own _))

private theorem upright_detached (detached : Detached f) (offers : List Offer) :
    Upright (answering f offers) := by
  obtain ⟨g, computes, own⟩ := detached
  refine upright_answer ?_
  rw [computes]
  exact own _

private theorem of_values_detached (ofValues : OfValues f) : Detached f := by
  obtain ⟨g, computes⟩ := ofValues
  exact ⟨fun values => .ok (g values), computes, fun _ => not_exceeds_ok _⟩

/-- A sort that is abandoned was not stopped at a limit. -/
theorem ascending_own {α : Type} (less : α → α → Bool) (items : List α)
    (make : List α → Value) : ¬Exceeds (do return make (← ascending less items)) := by
  unfold ascending
  cases sortStable? less items with
  | none => simp [Exceeds, bind, Except.bind]
  | some sorted => exact not_exceeds_ok _

private theorem sort_detached (s : Signature) : Detached ⟨s, fun args => sort (itemsAt args 0)⟩ :=
  ⟨fun values => sort ((nth values 0).toItems?.getD []),
    fun args => by simp only [itemsAt, valueAt_nth], fun _ => ascending_own _ _ _⟩

/-- The function goes by its plan, which is upright. -/
def Conducted (name : String) (f : Function) : Prop :=
  Registry.builtins.get? name = some f →
    f.Follows (plan name) ∧ ∀ offers, Upright (plan name offers)

/-- The functions that have something evaluated. -/
def asking : List String :=
  ["map", "max_by", "min_by", "sort_by"]

private theorem detached_conducted (detached : Detached f) (other : name ∉ asking) :
    Conducted name f := by
  intro known
  have planned : plan name = answering f := by
    funext offers
    simp only [asking, List.mem_cons, List.not_mem_nil, or_false, not_or] at other
    simp only [plan, other, if_false, known]
  rw [planned]
  exact ⟨detached_follows detached, upright_detached detached⟩

private theorem values_conducted (ofValues : OfValues f) (other : name ∉ asking) :
    Conducted name f :=
  detached_conducted (of_values_detached ofValues) other

private theorem map_conducted (s : Signature) : Conducted "map" ⟨s, map⟩ :=
  fun _ => ⟨map_follows s, upright_map⟩

private theorem max_by_conducted (s : Signature) : Conducted "max_by" ⟨s, maxBy⟩ :=
  fun _ => ⟨keyed_follows s _ _, upright_keyed _ fun _ => not_exceeds_ok _⟩

private theorem min_by_conducted (s : Signature) : Conducted "min_by" ⟨s, minBy⟩ :=
  fun _ => ⟨keyed_follows s _ _, upright_keyed _ fun _ => not_exceeds_ok _⟩

private theorem sort_by_conducted (s : Signature) : Conducted "sort_by" ⟨s, sortBy⟩ :=
  fun _ => ⟨keyed_follows s _ _, upright_keyed _ fun _ => ascending_own _ _ _⟩

private theorem functions_conducted : ∀ entry ∈ functions, Conducted entry.1 entry.2 := by
  simp [functions, values_conducted, unary_of_values, binary_of_values, items_of_values,
    join_of_values, merge_of_values, not_null_of_values, asking, map_conducted, max_by_conducted,
    min_by_conducted, detached_conducted, sort_detached, sort_by_conducted]

/-- How the functions of the library go about their calls. -/
def conduct : Registry.builtins.Conduct :=
  ⟨plan, fun _ _ known => (functions_conducted _ (builtin_listed known) known).1⟩

theorem conduct_candid : conduct.Candid :=
  fun _ _ known offers => ((functions_conducted _ (builtin_listed known) known).2 offers).1

theorem conduct_passes_on : conduct.PassesOn :=
  fun _ _ known offers => ((functions_conducted _ (builtin_listed known) known).2 offers).2

end Library

end JsonQuery
