import Mathlib.Data.List.Forall2
import Mathlib.Data.List.Induction
import JsonQuery.Query

/-! How a call comes to its function. The name is looked up, the arguments are counted, evaluated
from left to right and held against the parameters, and only then does the function run. A call ends
at exactly one of these stages, so that a function never sees arguments that it does not declare. -/
namespace JsonQuery

/-! ## What a signature asks for -/

namespace Signature

variable {s : Signature}

/-- As many arguments as parameters, or at least as many when the last parameter may repeat. -/
def Fits (s : Signature) (count : Nat) : Prop :=
  if s.repeats then s.params.length ≤ count else count = s.params.length

/-- The parameter that an argument is held against: the one in its place, and the last one for
arguments beyond the last place. -/
def facing? (s : Signature) (index : Nat) : Option Parameter :=
  s.params[min index (s.params.length - 1)]?

/-- There is a parameter for the argument at this place, and it takes the argument. -/
def Accepts (s : Signature) (index : Nat) (a : Argument) : Prop :=
  ∃ p, s.facing? index = some p ∧ p.accepts a = true

/-- Every argument is accepted at its place. -/
def AcceptsAll (s : Signature) (args : List Argument) : Prop :=
  ∀ index a, args[index]? = some a → s.Accepts index a

private theorem check_arity_fits (fits : s.Fits count) : s.checkArity name count = .ok () :=
  if_pos fits

private theorem check_arity_unfit (unfit : ¬s.Fits count) :
    s.checkArity name count = .error (.arity name s.params.length count s.repeats) :=
  if_neg unfit

/-- When the number of arguments fits, the check holds each of them against the parameter that it
faces, and passes over none. -/
theorem parameter_facing (fits : s.Fits count) (inside : index < count) :
    ∃ p, s.facing? index = some p ∧ s.parameter? index = some p := by
  by_cases declared : index < s.params.length
  · have same : min index (s.params.length - 1) = index := by omega
    refine ⟨s.params[index], ?_, ?_⟩
    · rw [facing?, same, List.getElem?_eq_getElem declared]
    · rw [parameter?, List.getElem?_eq_getElem declared]
  · -- Only a parameter that repeats leaves room for more arguments, and it is the last one.
    obtain ⟨fixed, _ | last⟩ := s
    · have exact : count = (Signature.mk fixed none).params.length := fits
      omega
    · have length : (Signature.mk fixed (some last)).params.length = fixed.length + 1 := by
        simp [params]
      have final : min index ((Signature.mk fixed (some last)).params.length - 1) =
          fixed.length := by
        omega
      refine ⟨last, ?_, ?_⟩
      · rw [facing?, final]
        simp [params]
      · rw [parameter?, List.getElem?_eq_none (Nat.not_lt.mp declared)]

private theorem accepts_all_cons (accepts : ∀ index a, (first :: more)[index]? = some a →
    s.Accepts (start + index) a) : s.Accepts start first ∧
      ∀ index a, more[index]? = some a → s.Accepts (start + 1 + index) a := by
  refine ⟨accepts 0 first rfl, fun index a there => ?_⟩
  rw [Nat.add_assoc, Nat.add_comm 1]
  exact accepts (index + 1) a there

/-- The check goes on behind arguments that are accepted. -/
theorem check_types_behind (fits : s.Fits count) (others accepted : List Argument) :
    ∀ start, start + accepted.length ≤ count →
      (∀ index a, accepted[index]? = some a → s.Accepts (start + index) a) →
        s.checkTypesFrom name start (accepted ++ others) =
          s.checkTypesFrom name (start + accepted.length) others := by
  induction accepted with
  | nil => exact fun _ _ _ => rfl
  | cons a more ih =>
    intro start within accepts
    rw [List.length_cons] at within
    obtain ⟨⟨p, faces, takes⟩, later⟩ := accepts_all_cons accepts
    obtain ⟨q, same, found⟩ := parameter_facing fits (show start < count by omega)
    cases faces.symm.trans same
    rw [List.cons_append, checkTypesFrom, found]
    dsimp only
    rw [if_pos takes, ih (start + 1) (by omega) later, List.length_cons, Nat.add_assoc,
      Nat.add_comm 1]

private theorem check_types_front (fits : s.Fits (accepted ++ others).length)
    (accepts : s.AcceptsAll accepted) : s.checkTypes name (accepted ++ others) =
      s.checkTypesFrom name accepted.length others := by
  rw [checkTypes, check_types_behind fits others accepted 0 (by simp)
    fun index a there => by rw [Nat.zero_add]; exact accepts index a there, Nat.zero_add]

/-- Arguments that are all accepted pass the check. -/
theorem check_types_accepted (fits : s.Fits args.length) (accepts : s.AcceptsAll args) :
    s.checkTypes name args = .ok () := by
  rw [← List.append_nil args] at fits ⊢
  exact check_types_front fits accepts

/-- The first argument that is not accepted is the error. -/
theorem check_types_refused (fits : s.Fits (accepted ++ a :: others).length)
    (accepts : s.AcceptsAll accepted) (faces : s.facing? accepted.length = some p)
    (refused : p.accepts a = false) : s.checkTypes name (accepted ++ a :: others) =
      .error (.invalidType name accepted.length p.types a.typeName) := by
  have inside : accepted.length < (accepted ++ a :: others).length := by simp
  obtain ⟨q, same, found⟩ := parameter_facing fits inside
  cases faces.symm.trans same
  rw [check_types_front fits accepts, checkTypesFrom, found]
  dsimp only
  rw [refused, if_neg Bool.false_ne_true]

private theorem accepts_all_append (accepts : s.AcceptsAll args) (last : s.Accepts args.length a) :
    s.AcceptsAll (args ++ [a]) := by
  intro index b there
  rcases Nat.lt_trichotomy index args.length with inside | rfl | outside
  · rw [List.getElem?_append_left inside] at there
    exact accepts index b there
  · rw [List.getElem?_concat_length] at there
    cases there
    exact last
  · rw [List.getElem?_eq_none (by simp; omega)] at there
    cases there

theorem accepts_all_one (accepts : s.Accepts 0 a) : s.AcceptsAll [a] := by
  have none : s.AcceptsAll [] := nofun
  exact accepts_all_append none accepts

theorem accepts_all_two (first : s.Accepts 0 a) (second : s.Accepts 1 b) : s.AcceptsAll [a, b] :=
  accepts_all_append (accepts_all_one first) second

/-- Either all arguments are accepted, or there is a first one that is not. -/
theorem accepts_or_first (s : Signature) (args : List Argument) :
    s.AcceptsAll args ∨ ∃ accepted a others, args = accepted ++ a :: others ∧
      s.AcceptsAll accepted ∧ ¬s.Accepts accepted.length a := by
  induction args using List.reverseRecOn with
  | nil => exact .inl nofun
  | append_singleton front last ih =>
    obtain all | ⟨accepted, a, others, rfl, accepts, refused⟩ := ih
    · by_cases fits : s.Accepts front.length last
      · exact .inl (accepts_all_append all fits)
      · exact .inr ⟨front, last, [], rfl, all, fits⟩
    · exact .inr ⟨accepted, a, others ++ [last], by simp, accepts, refused⟩

/-- When the number of arguments fits, the first argument that is not accepted faces a parameter
that does not take it. -/
theorem accepts_or_refused (fits : s.Fits args.length) :
    s.AcceptsAll args ∨ ∃ accepted a others p, args = accepted ++ a :: others ∧
      s.AcceptsAll accepted ∧ s.facing? accepted.length = some p ∧ p.accepts a = false := by
  obtain accepts | ⟨accepted, a, others, rfl, earlier, refused⟩ := s.accepts_or_first args
  · exact .inl accepts
  · have inside : accepted.length < (accepted ++ a :: others).length := by simp
    obtain ⟨p, faces, -⟩ := parameter_facing fits inside
    refine .inr ⟨accepted, a, others, p, rfl, earlier, faces, ?_⟩
    rw [← Bool.not_eq_true]
    exact fun takes => refused ⟨p, faces, takes⟩

theorem fits_of_check (counted : s.checkArity name count = .ok ()) : s.Fits count := by
  by_contra unfit
  rw [check_arity_unfit unfit] at counted
  cases counted

/-- What passes the check is accepted throughout. -/
theorem accepts_of_check (fits : s.Fits args.length) (checked : s.checkTypes name args = .ok ()) :
    s.AcceptsAll args := by
  obtain accepts | ⟨accepted, a, others, p, rfl, earlier, faces, refused⟩ := accepts_or_refused fits
  · exact accepts
  · rw [check_types_refused fits earlier faces refused] at checked
    cases checked

/-- No type but the one of references is that of an expression. -/
theorem accepts_reference {p : Parameter} (accepts : p.accepts (.expression e eval) = true) :
    .reference ∈ p.types := by
  obtain ⟨t, listed, takes⟩ := List.any_eq_true.mp accepts
  rwa [of_decide_eq_true takes] at listed

end Signature

/-! ## The stages of a call -/

/-- What an argument is once its turn has come. A reference is handed on with its evaluation, and
everything else is evaluated on the current value. -/
inductive Resolved (evaluate : Expr → Value → Except EvalError Value) (current : Value) :
    Expr → Argument → Prop where
  | reference : Resolved evaluate current (.reference e) (.expression e (evaluate e))
  | value (evaluated : ∀ child, e ≠ .reference child) (result : evaluate e current = .ok v) :
      Resolved evaluate current e (.value v)

/-- Whether a call is refused, and with which error, or else which function runs on which arguments.
The conditions of each stage exclude those before it. -/
inductive Admits (functions : Registry) (evaluate : Expr → Value → Except EvalError Value)
    (current : Value) (name : String) (args : List Expr) :
    Except EvalError (Function × List Argument) → Prop where
  | unknown (missing : functions.get? name = none) :
      Admits functions evaluate current name args (.error (.unknownFunction name))
  | arity (known : functions.get? name = some f) (unfit : ¬f.signature.Fits args.length) :
      Admits functions evaluate current name args
        (.error (.call (.arity name f.signature.params.length args.length f.signature.repeats)))
  /-- The first argument that fails, in the order in which they are written. -/
  | argument (known : functions.get? name = some f) (fits : f.signature.Fits args.length)
      (place : args = before ++ e :: after)
      (earlier : List.Forall₂ (Resolved evaluate current) before resolved)
      (evaluated : ∀ child, e ≠ .reference child)
      (fails : evaluate e current = .error why) :
      Admits functions evaluate current name args (.error why)
  /-- The first argument that is not accepted by the parameter that it faces. -/
  | type (known : functions.get? name = some f) (fits : f.signature.Fits args.length)
      (resolved : List.Forall₂ (Resolved evaluate current) args (accepted ++ a :: others))
      (earlier : f.signature.AcceptsAll accepted)
      (faces : f.signature.facing? accepted.length = some p) (refused : p.accepts a = false) :
      Admits functions evaluate current name args
        (.error (.call (.invalidType name accepted.length p.types a.typeName)))
  | admitted (known : functions.get? name = some f) (fits : f.signature.Fits args.length)
      (resolved : List.Forall₂ (Resolved evaluate current) args arguments)
      (accepts : f.signature.AcceptsAll arguments) :
      Admits functions evaluate current name args (.ok (f, arguments))

/-- What a function may rely on: as many arguments as were written and as its signature asks for,
each accepted by the parameter that it faces, and expressions only where a reference was written and
where the parameter lists references. -/
structure Guarded (s : Signature) (args : List Expr) (arguments : List Argument) : Prop where
  as_written : arguments.length = args.length
  fits : s.Fits arguments.length
  accepted : s.AcceptsAll arguments
  reference_iff : ∀ (index : Nat) (e : Expr),
    (∃ evaluation, arguments[index]? = some (ArgumentIn.expression e evaluation)) ↔
      args[index]? = some (Expr.reference e)
  listed : ∀ (index : Nat) e evaluation,
    arguments[index]? = some (ArgumentIn.expression e evaluation) →
      ∃ p, s.facing? index = some p ∧ .reference ∈ p.types

section

variable {evaluate : Expr → Value → Except EvalError Value} {current : Value}

private theorem resolved_or_fails (evaluate : Expr → Value → Except EvalError Value)
    (current : Value)
    (e : Expr) : (∃ a, Resolved evaluate current e a) ∨
      (∀ child, e ≠ .reference child) ∧ ∃ failure, evaluate e current = .error failure := by
  by_cases reference : ∃ child, e = .reference child
  · obtain ⟨child, rfl⟩ := reference
    exact .inl ⟨_, .reference⟩
  · have evaluated : ∀ child, e ≠ .reference child := fun child same => reference ⟨child, same⟩
    cases outcome : evaluate e current with
    | ok v => exact .inl ⟨_, .value evaluated outcome⟩
    | error failure => exact .inr ⟨evaluated, failure, rfl⟩

/-- An expression is handed on exactly where a reference to it is written. -/
theorem reference_iff (resolved : List.Forall₂ (Resolved evaluate current) args arguments)
    (index : Nat) (e : Expr) : (∃ evaluation, arguments[index]? = some (.expression e evaluation)) ↔
      args[index]? = some (.reference e) := by
  induction resolved generalizing index with
  | nil => simp
  | cons first _ ih =>
    cases index with
    | zero =>
      cases first with
      | reference => simp
      | value evaluated _ => simp [evaluated e]
    | succ index => simpa using ih index

/-- Either all arguments are resolved, or there is a first one that fails. -/
theorem resolved_or_first (evaluate : Expr → Value → Except EvalError Value) (current : Value)
    (args : List Expr) :
    (∃ arguments, List.Forall₂ (Resolved evaluate current) args arguments) ∨
      ∃ before e after resolved failure, args = before ++ e :: after ∧
        List.Forall₂ (Resolved evaluate current) before resolved ∧
          (∀ child, e ≠ .reference child) ∧ evaluate e current = .error failure := by
  induction args with
  | nil => exact .inl ⟨[], .nil⟩
  | cons e rest ih =>
    obtain ⟨a, first⟩ | ⟨evaluated, failure, fails⟩ := resolved_or_fails evaluate current e
    · obtain ⟨arguments, others⟩ | ⟨before, bad, after, earlier, failure, rfl, front, fails⟩ := ih
      · exact .inl ⟨a :: arguments, .cons first others⟩
      · exact .inr ⟨e :: before, bad, after, a :: earlier, failure, rfl, .cons first front, fails⟩
    · exact .inr ⟨[], e, rest, [], failure, rfl, .nil, evaluated, fails⟩

private theorem admits_total (functions : Registry)
    (evaluate : Expr → Value → Except EvalError Value)
    (current : Value) (name : String) (args : List Expr) :
    ∃ admission, Admits functions evaluate current name args admission := by
  cases known : functions.get? name with
  | none => exact ⟨_, .unknown known⟩
  | some f =>
    by_cases fits : f.signature.Fits args.length
    · obtain ⟨arguments, resolved⟩ |
        ⟨before, e, after, earlier, failure, rfl, front, evaluated, fails⟩ :=
          resolved_or_first evaluate current args
      · obtain accepts | ⟨accepted, a, others, p, rfl, earlier, faces, refused⟩ :=
          Signature.accepts_or_refused (resolved.length_eq ▸ fits)
        · exact ⟨_, .admitted known fits resolved accepts⟩
        · exact ⟨_, .type known fits resolved earlier faces refused⟩
      · exact ⟨_, .argument known fits rfl front evaluated fails⟩
    · exact ⟨_, .arity known fits⟩

/-- A function is only admitted with arguments that it may rely on. -/
theorem guarded_of_admits {f : Function} {arguments : List Argument}
    (admits : Admits functions evaluate current name args (.ok (f, arguments))) :
    functions.get? name = some f ∧ Guarded f.signature args arguments := by
  cases admits with
  | admitted known fits resolved accepts =>
    refine ⟨known, resolved.length_eq.symm, resolved.length_eq ▸ fits, accepts,
      reference_iff resolved, fun index e evaluation there => ?_⟩
    obtain ⟨p, faces, takes⟩ := accepts index _ there
    exact ⟨p, faces, Signature.accepts_reference takes⟩

end

namespace Expr

variable {s : Settings} {depth : Nat} {v : Value}

/-- An array comes from an expression that is evaluated, and not from a reference. -/
theorem array_evaluated (array : eval s depth e v = .ok (.arr items)) (child : Expr) :
    e ≠ .reference child := by
  rintro rfl
  have room := room_of_ok array
  rw [eval, room] at array
  cases array

/-- The steps of a call before its function runs. -/
def admission (s : Settings) (depth : Nat) (name : String) (args : List Expr) (v : Value) :
    Except EvalError (Function × List Argument) := do
  let f ← s.functions.lookup name
  (f.signature.checkArity name args.length).mapError .call
  let resolved ← evalArguments s (depth + 1) args v
  (f.signature.checkTypes name resolved).mapError .call
  return (f, resolved)

theorem eval_call (room : s.exceeded? depth = none) (name : String) (args : List Expr) :
    eval s depth (.call name args) v = (do
      let (f, arguments) ← admission s depth name args v
      f.call arguments) := by
  rw [eval, room]
  simp only [admission, bind_assoc, pure_bind]

/-- An argument that is evaluated is put in front of the others once these are evaluated too. -/
theorem eval_arguments_cons (evaluated : ∀ child, e ≠ .reference child) (rest : List Expr) :
    evalArguments s depth (e :: rest) v = (do
      let first ← eval s depth e v
      let others ← evalArguments s depth rest v
      return .value first :: others) := by
  cases e with
  | reference child => exact absurd rfl (evaluated child)
  | _ => rfl

/-- Arguments that are resolved hand on to those behind them. -/
theorem eval_arguments_front {front : List Expr}
    (resolved : List.Forall₂ (Resolved (eval s depth) v) front arguments) (rest : List Expr) :
    evalArguments s depth (front ++ rest) v =
      (evalArguments s depth rest v).map (arguments ++ ·) := by
  induction resolved with
  | nil => cases h : evalArguments s depth rest v <;> simp [h, Except.map]
  | cons first _ ih =>
    cases first with
    | reference =>
      rw [List.cons_append, evalArguments, ih]
      cases evalArguments s depth rest v <;> rfl
    | value evaluated result =>
      rw [List.cons_append, eval_arguments_cons evaluated, ih, result]
      cases evalArguments s depth rest v <;> rfl

private theorem eval_arguments_resolved
    (resolved : List.Forall₂ (Resolved (eval s depth) v) args arguments) :
    evalArguments s depth args v = .ok arguments := by
  have same := eval_arguments_front resolved []
  rwa [List.append_nil, evalArguments, Except.map, List.append_nil] at same

private theorem eval_arguments_fail {before : List Expr}
    (earlier : List.Forall₂ (Resolved (eval s depth) v) before resolved)
    (evaluated : ∀ child, e ≠ .reference child) (fails : eval s depth e v = .error why)
    (after : List Expr) : evalArguments s depth (before ++ e :: after) v = .error why := by
  rw [eval_arguments_front earlier, eval_arguments_cons evaluated, fails]
  rfl

/-- The steps of a call end at the stage that admits it or refuses it. -/
theorem admission_of_admits
    (admits : Admits s.functions (eval s (depth + 1)) v name args outcome) :
    admission s depth name args v = outcome := by
  unfold admission Registry.lookup
  cases admits with
  | unknown missing =>
    rw [missing]
    rfl
  | arity known unfit =>
    rw [known]
    dsimp only [bind, Except.bind]
    rw [Signature.check_arity_unfit unfit]
    rfl
  | argument known fits place earlier evaluated fails =>
    rw [known, place]
    rw [place] at fits
    dsimp only [bind, Except.bind]
    rw [Signature.check_arity_fits fits, eval_arguments_fail earlier evaluated fails]
    rfl
  | type known fits resolved earlier faces refused =>
    rw [known]
    dsimp only [bind, Except.bind]
    rw [Signature.check_arity_fits fits, eval_arguments_resolved resolved]
    dsimp only [Except.mapError]
    rw [Signature.check_types_refused (resolved.length_eq ▸ fits) earlier faces refused]
  | admitted known fits resolved accepts =>
    rw [known]
    dsimp only [bind, Except.bind]
    rw [Signature.check_arity_fits fits, eval_arguments_resolved resolved]
    dsimp only [Except.mapError]
    rw [Signature.check_types_accepted (resolved.length_eq ▸ fits) accepts]
    rfl

/-- A function runs on arguments that its signature accepts. -/
theorem eval_accepted {f : Function} (room : s.exceeded? depth = none)
    (known : s.functions.get? name = some f)
    (resolved : List.Forall₂ (Resolved (eval s (depth + 1)) v) args arguments)
    (accepts : f.signature.AcceptsAll arguments) (fits : f.signature.Fits args.length) :
    eval s depth (.call name args) v = f.call arguments := by
  rw [eval_call room, admission_of_admits (.admitted known fits resolved accepts)]
  rfl

/-- Every call is admitted or refused in exactly one way, and the function runs exactly when the
call is admitted, on arguments that it may rely on. -/
theorem call_dispatched (room : s.exceeded? depth = none) (name : String) (args : List Expr)
    (v : Value) :
    ∃ admission, Admits s.functions (eval s (depth + 1)) v name args admission ∧
      (∀ other, Admits s.functions (eval s (depth + 1)) v name args other → other = admission) ∧
      (eval s depth (.call name args) v = do
        let (f, arguments) ← admission
        f.call arguments) ∧
      ∀ f arguments, admission = .ok (f, arguments) →
        s.functions.get? name = some f ∧ Guarded f.signature args arguments := by
  obtain ⟨outcome, admits⟩ := admits_total s.functions (eval s (depth + 1)) v name args
  have ends := admission_of_admits admits
  refine ⟨outcome, admits, fun other also => ?_, ?_, fun f arguments runs => ?_⟩
  · exact (admission_of_admits also).symm.trans ends
  · rw [eval_call room, ends]
  · exact guarded_of_admits (runs ▸ admits)

/-- A reference in a repeated place is held against the last parameter, and no type but that of
references takes it. -/
theorem call_dispatched_repeated :
    Settings.exceeded? ⟨.builtins, .insertion, some maxEvalDepth⟩ 0 = none ∧
      eval ⟨.builtins, .insertion, some maxEvalDepth⟩ 0
        (.call "not_null" [.current, .reference (.field "a")]) .null =
          .error (.call (.invalidType "not_null" 1 [.any] "expref")) := by
  have room : Settings.exceeded? ⟨.builtins, .insertion, some maxEvalDepth⟩ 0 = none := rfl
  refine ⟨room, ?_⟩
  obtain ⟨admission, -, only, runs, -⟩ :=
    call_dispatched room "not_null" [.current, .reference (.field "a")] .null
  have known : Registry.builtins.get? "not_null" =
    some ⟨Library.takingMany [.any], fun args => .ok (Library.notNull args)⟩ := rfl
  have first : (Library.takingMany [.any]).AcceptsAll [.value .null] :=
    Signature.accepts_all_one ⟨_, rfl, rfl⟩
  have evaluated : ∀ child, Expr.current ≠ .reference child := by
    intro child same
    cases same
  have refused := only _ (.type known (Nat.le_succ 1)
    (.cons (.value evaluated rfl) (.cons .reference .nil)) first rfl rfl)
  rw [runs, ← refused]
  rfl

end Expr

end JsonQuery
