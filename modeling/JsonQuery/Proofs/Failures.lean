import JsonQuery.Query
import JsonQuery.Proofs.DepthLimit
import JsonQuery.Proofs.KeyedSorting
import JsonQuery.Proofs.Nodes
import JsonQuery.Proofs.PlainEvaluation

/-! What can go wrong once a text is parsed. Every form of expression is defined on every value, so a
failure comes out of a call: its function is not known, or it does not take its arguments. Failures
of the expressions that a function evaluates are those of the calls inside them. A sort may also be
abandoned, which ends everything around it. -/
namespace JsonQuery

/-- The failures of a call of its own. -/
inductive CallFailure (functions : Registry) (name : String) : EvalError → Prop where
  | unknown (missing : functions.get? name = none) :
      CallFailure functions name (.unknownFunction name)
  | refused (known : functions.get? name = some f) (about : c.function = name) :
      CallFailure functions name (.call c)

/-- The functions that sort. -/
def Library.sorting : List String :=
  ["sort", "sort_by"]

/-- How a call ends by itself when it has no value: it fails, or it is a sort and abandoned. -/
def CallEnds (functions : Registry) (name : String) (e : EvalError) : Prop :=
  CallFailure functions name e ∨ name ∈ Library.sorting ∧ e = .disorder

/-- The outcome is a value of this kind or a failure that is allowed. -/
def EndsAs {α : Type} (allowed : EvalError → Prop) (holds : α → Prop) :
    Except EvalError α → Prop
  | .ok a => holds a
  | .error failure => allowed failure

/-- Whatever goes wrong is allowed to. -/
def FailsAs {α : Type} (allowed : EvalError → Prop) (outcome : Except EvalError α) : Prop :=
  EndsAs allowed (fun _ => True) outcome

section

variable {α β : Type} {allowed alone : EvalError → Prop}

private theorem fails_ok (a : α) : FailsAs allowed (.ok a) :=
  trivial

private theorem fails_pure (a : α) : FailsAs allowed (pure a) :=
  trivial

theorem ends_then {outcome : Except EvalError α} {next : α → Except EvalError β}
    {holds : α → Prop} {wanted : β → Prop} (first : EndsAs allowed holds outcome)
    (others : ∀ a, holds a → EndsAs allowed wanted (next a)) :
    EndsAs allowed wanted (outcome >>= next) := by
  cases outcome with
  | ok a => exact others a first
  | error failure => exact first

private theorem fails_then {outcome : Except EvalError α} {next : α → Except EvalError β}
    (first : FailsAs allowed outcome) (others : ∀ a, FailsAs allowed (next a)) :
    FailsAs allowed (outcome >>= next) :=
  ends_then first fun a _ => others a

/-- An outcome fails as allowed if it is beside another with which it shares every failure. -/
theorem fails_beside {agree : α → β → Prop} {outcome : Except EvalError α}
    {other : Except EvalError β} (never : ∀ e, ¬alone e)
    (beside : Beside allowed alone agree outcome other) : FailsAs allowed outcome := by
  cases beside with
  | value => trivial
  | failure may => exact may
  | stopped may => exact absurd may (never _)

private theorem beside_fails {outcome : Except EvalError α} (fails : FailsAs allowed outcome) :
    Beside allowed alone (· = ·) outcome outcome := by
  refine beside_same fun e failed => ?_
  rw [failed] at fails
  exact fails

/-- A sort has a value unless it is abandoned. -/
theorem fails_ascending (gone : allowed .disorder) (less : α → α → Bool) (items : List α)
    (make : List α → β) : FailsAs allowed (do return make (← Library.ascending less items)) := by
  unfold Library.ascending
  cases sortStable? less items with
  | none => exact gone
  | some sorted => exact fails_ok _

section
variable {f : Value → Except EvalError Value} (each : ∀ v, FailsAs allowed (f v))
include each

private theorem fails_map (items : List Value) : FailsAs allowed (items.mapM f) := by
  induction items with
  | nil => exact fails_pure _
  | cons item rest ih =>
    rw [List.mapM_cons]
    exact fails_then (each item) fun _ => fails_then ih fun _ => fails_pure _

/-- A key that does not fit is the fault of the function that asks for it. -/
theorem fails_keyed (own : ∀ c : CallError, c.function = name → allowed (.call c))
    (items : List Value) :
    ∀ required, FailsAs allowed (Library.keyed name f required items) := by
  induction items with
  | nil => exact fun _ => fails_ok _
  | cons item rest ih =>
    intro required
    refine fails_then (each item) fun key => ?_
    dsimp only
    split
    · split
      · exact fails_then (ih _) fun _ => fails_pure _
      · exact own _ rfl
    · exact own _ rfl

end

/-- The evaluations that come with the arguments fail as allowed. -/
def ArgumentsFailAs (allowed : EvalError → Prop) (args : List Argument) : Prop :=
  ∀ e eval, .expression e eval ∈ args → ∀ v, FailsAs allowed (eval v)

private theorem matched_fail {args others : List Argument} (never : ∀ e, ¬alone e)
    (matched : List.Forall₂ (ArgumentsMatch (· = ·) (Beside allowed alone (· = ·))) args others) :
    ArgumentsFailAs allowed args := by
  induction matched with
  | nil => exact fun _ _ => nofun
  | cons first _ ih =>
    rintro e eval (_ | ⟨_, member⟩) v
    · cases first with
      | expression each => exact fails_beside never (each v v rfl)
    · exact ih e eval member v

/-- A function without the expression that it asks for fails by itself. -/
theorem fails_expression {args : List Argument} {next : (Value → Except EvalError Value) →
      Except EvalError β}
    (own : ∀ c : CallError, c.function = name → allowed (.call c))
    (inner : ArgumentsFailAs allowed args) (index : Nat)
    (others : ∀ eval : Value → Except EvalError Value, (∀ v, FailsAs allowed (eval v)) →
      FailsAs allowed (next eval)) :
    FailsAs allowed (Library.expressionAt name args index >>= next) := by
  unfold Library.expressionAt
  split
  · rename_i eval found
    obtain ⟨a, there, evaluates⟩ := Option.bind_eq_some_iff.mp found
    cases a with
    | value v => cases evaluates
    | expression e own =>
      cases evaluates
      exact others _ (inner e _ (List.mem_of_getElem? there))
  · exact own _ rfl

end

/-- Apart from the evaluations that it is handed, a call fails only with errors that name it, and only
a sort is abandoned. -/
def Function.FailsItself (name : String) (f : Function) : Prop :=
  ∀ (allowed : EvalError → Prop) args, (∀ c : CallError, c.function = name → allowed (.call c)) →
    (name ∈ Library.sorting → allowed .disorder) →
      ArgumentsFailAs allowed args → FailsAs allowed (f.call args)

namespace Library

private theorem of_values_itself (ofValues : OfValues f) : f.FailsItself name := by
  obtain ⟨g, computes⟩ := ofValues
  intro allowed args own gone inner
  rw [computes]
  exact fails_ok _

private theorem map_itself (s : Signature) : (Function.mk s map).FailsItself "map" :=
  fun _ _ own _ inner =>
    fails_expression own inner 0 fun _ each => fails_then (fails_map each _) fun _ => fails_pure _

private theorem sort_itself (s : Signature) :
    (Function.mk s fun args => sort (itemsAt args 0)).FailsItself "sort" :=
  fun _ _ _ gone _ => fails_ascending (gone (List.mem_cons_self ..)) _ _ _

/-- The functions that work on items with their keys differ in what they make of them. -/
theorem keyed_itself (s : Signature) (finish : List (Value × Value) → Except EvalError Value)
    (finishes : ∀ allowed : EvalError → Prop, (name ∈ sorting → allowed .disorder) →
      ∀ pairs, FailsAs allowed (finish pairs)) :
    (Function.mk s fun args => keyedItems name args >>= finish).FailsItself name := by
  intro allowed args own gone inner
  refine fails_then ?_ (finishes allowed gone)
  exact fails_expression own inner 1 fun _ each => fails_keyed each own _ _

private theorem max_by_itself (s : Signature) : (Function.mk s maxBy).FailsItself "max_by" :=
  keyed_itself s _ fun _ _ _ => fails_pure _

private theorem min_by_itself (s : Signature) : (Function.mk s minBy).FailsItself "min_by" :=
  keyed_itself s _ fun _ _ _ => fails_pure _

private theorem sort_by_itself (s : Signature) : (Function.mk s sortBy).FailsItself "sort_by" :=
  keyed_itself s _ fun _ gone _ => fails_ascending (gone (by simp [sorting])) _ _ _

private theorem functions_itself : ∀ entry ∈ functions, entry.2.FailsItself entry.1 := by
  simp [functions, of_values_itself, unary_of_values, binary_of_values, items_of_values,
    join_of_values, merge_of_values, not_null_of_values, map_itself, max_by_itself, min_by_itself,
    sort_itself, sort_by_itself]

end Library

/-- No limit stops an evaluation, and no function fails by itself except with an error that names
it. -/
structure Settings.Open (s : Settings) : Prop where
  unlimited : s.limit = none
  itself : ∀ name f, s.functions.get? name = some f → f.FailsItself name

/-- Calls inside an expression may end as they do by themselves. -/
def CallsAllowed (functions : Registry) (allowed : EvalError → Prop) (nodes : List Expr) : Prop :=
  ∀ name args failure, .call name args ∈ nodes → CallEnds functions name failure → allowed failure

private theorem calls_inside {nodes others : List Expr}
    (calls : CallsAllowed functions allowed others)
    (inside : nodes ⊆ others) : CallsAllowed functions allowed nodes :=
  fun name args failure member => calls name args failure (inside member)

namespace Expr

/-- A failure without a limit is that of a call somewhere in the expression. -/
theorem eval_fails {s : Settings} {allowed : EvalError → Prop} (going : s.Open) (e : Expr) :
    ∀ depth v, CallsAllowed s.functions allowed e.nodes → FailsAs allowed (eval s depth e v) := by
  induction e using needs_induction with | step e below
  intro depth v calls
  have inside : AgreeBelow (Beside.simulation allowed fun _ => False) (· = ·) (eval s (depth + 1))
      (eval s (depth + 1)) e := by
    rintro sub needs v _ rfl
    exact beside_fails (below sub needs (depth + 1) v (calls_inside calls (needs_nodes needs)))
  have begins (body : Except EvalError Value) : guarded s depth body = body := by
    rw [guarded, Settings.exceeded?, going.unlimited, Option.filter_none]
  have itself : Beside allowed (fun _ => False) (· = ·)
      (combine s.order (eval s (depth + 1)) (callAt s (depth + 1)) e v)
      (combine s.order (eval s (depth + 1)) (callAt s (depth + 1)) e v) := by
    refine simulated_combine (Beside.simulation _ _) (equal_congruence s.order) inside
      (fun _ _ => rfl) (fun _ _ _ => equal_spreads) ?_ rfl
    rintro name args rfl v _ rfl
    have may (failure : EvalError) (ends : CallEnds s.functions name failure) : allowed failure :=
      calls name args failure (by simp) ends
    have own (f : Function) (known : s.functions.get? name = some f) (c : CallError)
        (about : c.function = name) : allowed (.call c) :=
      may _ (.inl (.refused known about))
    refine simulated_call (Beside.simulation _ _) (equal_congruence s.order)
      (beside_lookup rfl fun missing => may _ (.inl (.unknown missing)))
      (fun f known _ names => beside_check fun c refused => own f known c (names c refused))
      (fun f known resolved matching matched => ?_) inside rfl
    rw [← matched_equal (fun _ => id) matched]
    exact beside_fails (going.itself name f known allowed resolved (own f known)
      (fun sorts => may _ (.inr ⟨sorts, rfl⟩)) (matched_fail (fun _ => id) matched))
  rw [eval_combine, begins]
  exact fails_beside (fun _ => id) itself

private theorem builtins_open (order : ObjectOrder) : (Settings.mk .builtins order none).Open where
  unlimited := rfl
  itself _ _ known := Library.functions_itself _ (builtin_listed known)

private theorem subscript_calls (left right : Expr) :
    Expr.call name args ∈ (Rules.subscript left right).nodes ↔
      .call name args ∈ left.nodes ∨ .call name args ∈ right.nodes := by
  by_cases nothing : left = .identity
  · subst nothing
    simp [Rules.subscript]
  · simp [subscript_bracket left right nothing]

private theorem connective_calls (joins : Token.connective? t = some build) (left right : Expr) :
    Expr.call name args ∈ (build left right).nodes ↔
      .call name args ∈ left.nodes ∨ .call name args ∈ right.nodes := by
  rcases connective_cases joins with ⟨rfl, rfl⟩ | ⟨rfl, rfl⟩ | ⟨rfl, rfl⟩ | ⟨op, rfl, rfl⟩ <;> simp

/-- A call in an expression is written with the name of its function in front of a parenthesis. -/
theorem reads_calls (reads : Reads part taken e rest) :
    .call name args ∈ e.nodes →
      .functionName name ∈ taken ∨ .call name args ∈ part.base.nodes := by
  induction reads with
  | connective joins operand right =>
    rw [connective_calls joins]
    rintro (before | called)
    · exact .inr before
    · have among := right called
      simp only [Part.base, nodes, List.mem_cons, List.not_mem_nil, or_false, reduceCtorEq] at among
      exact .inl (List.mem_cons_of_mem _ among)
  | index => simp [Part.base, subscript_calls]
  | slice nonzero tail p =>
    simp only [Part.base, nodes, List.mem_cons, List.mem_append, subscript_calls] at p ⊢
    grind
  | _ =>
    simp [Part.base] at * <;> grind

private theorem parse_calls (parsed : Expr.parse text = .ok e)
    (lexed : TokenStream.ofText text = .ok s) :
    .call name args ∈ e.nodes → .functionName name ∈ s.tokens := by
  obtain ⟨_, again, ⟨-, rfl⟩ | reads⟩ := parse_within_reads parsed
  · simp
  · cases lexed.symm.trans again
    simpa [Part.base] using reads_calls reads

/-- The limit on evaluations leaves room for every expression that the one on texts admits. -/
theorem parsed_evaluates (parsed : Expr.parse text = .ok e) (order : ObjectOrder) (v : Value) :
    e.evaluate ⟨order, .builtins⟩ v = e.eval ⟨.builtins, order, none⟩ 0 v ∧
      ¬Exceeds (e.evaluate ⟨order, .builtins⟩ v) := by
  have short : e.height ≤ 128 := (parse_depth_exact text).1 e parsed |>.2
  have fits : ∀ limit, (Options.settings ⟨order, .builtins⟩).limit = some limit →
      0 + e.height ≤ limit := by
    rintro _ ⟨⟩
    simp only [maxEvalDepth]
    omega
  obtain ⟨plain, candid⟩ := eval_plain Library.conduct fits 0 v
  refine ⟨plain, ?_⟩
  rw [evaluate, plain]
  exact candid Library.conduct_candid

/-- A text fails only where it calls a function: none of that name is known, or the arguments do not
fit it. The evaluation is never too deep, and without a call it always succeeds. A text that sorts may
also be abandoned. -/
theorem evaluate_fails_in_call (parsed : Expr.parse text = .ok e) :
    ∃ s, TokenStream.ofText text = .ok s ∧ ∀ order document,
      (∀ failure, e.evaluate ⟨order, .builtins⟩ document = .error failure →
        ∃ name, .functionName name ∈ s.tokens ∧
          (CallFailure .builtins name failure ∨ name ∈ Library.sorting ∧ failure = .disorder)) ∧
      (∀ limit, e.evaluate ⟨order, .builtins⟩ document ≠ .error (.depthExceeded limit)) ∧
      ((∀ name, .functionName name ∉ s.tokens) →
        ∃ result, e.evaluate ⟨order, .builtins⟩ document = .ok result) := by
  obtain ⟨s, lexed, -⟩ := parse_within_reads parsed
  refine ⟨s, lexed, fun order document => ?_⟩
  obtain ⟨plain, shallow⟩ := parsed_evaluates parsed order document
  have calls : CallsAllowed .builtins (fun failure => ∃ name,
      .functionName name ∈ s.tokens ∧ CallEnds .builtins name failure) e.nodes :=
    fun name args failure member ends => ⟨name, parse_calls parsed lexed member, ends⟩
  have ends := eval_fails (builtins_open order) e 0 document calls
  rw [← plain] at ends
  refine ⟨?_, fun limit stopped => shallow ⟨limit, stopped⟩, fun none => ?_⟩
  · intro failure failed
    rw [failed] at ends
    exact ends
  · cases outcome : e.evaluate ⟨order, .builtins⟩ document with
    | ok result => exact ⟨result, rfl⟩
    | error failure =>
      rw [outcome] at ends
      obtain ⟨name, called, -⟩ := ends
      exact absurd called (none name)

theorem evaluate_fails_in_call_unknown :
    Expr.parse "f(a)" = .ok (.call "f" [.field "a"]) ∧
      (Expr.call "f" [.field "a"]).evaluate ⟨.sorted, .builtins⟩ .null =
        .error (.unknownFunction "f") ∧
      ∃ s name, TokenStream.ofText "f(a)" = .ok s ∧ .functionName name ∈ s.tokens ∧
        CallFailure .builtins name (.unknownFunction "f") := by
  have parsed : Expr.parse "f(a)" = .ok (.call "f" [.field "a"]) := by cbv
  have failed : (Expr.call "f" [.field "a"]).evaluate ⟨.sorted, .builtins⟩ .null =
      .error (.unknownFunction "f") := by cbv
  obtain ⟨s, lexed, fails⟩ := evaluate_fails_in_call parsed
  obtain ⟨name, called, own | ⟨-, ⟨⟩⟩⟩ := (fails .sorted .null).1 _ failed
  exact ⟨parsed, failed, s, name, lexed, called, own⟩

/-- A text that sorts, abandoned on an array of numbers. -/
theorem evaluate_given_up :
    Expr.parse "sort(@)" = .ok (.call "sort" [.current]) ∧
      (Expr.call "sort" [.current]).evaluate ⟨.insertion, .builtins⟩ (.arr Library.contrary) =
        .error .disorder := by
  let s : Settings := Options.standard.settings
  have array : eval s (0 + 1) .current (.arr Library.contrary) = .ok (.arr Library.contrary) := rfl
  have one : Value.OneKind Library.contrary := .inl (by decide)
  have known : s.functions.get? "sort" = some ⟨Library.taking [[.numbers, .strings]],
      fun args => Library.sort (Library.itemsAt args 0)⟩ := rfl
  have run := eval_of_items known array one
  exact ⟨by cbv, run.trans (Library.sort_gives_up Library.contrary_gives_up)⟩

end Expr

end JsonQuery
