import JsonQuery.Eval
import JsonQuery.Proofs.Conduct
import JsonQuery.Proofs.Height

/-! A limited evaluation beside the plain one. An expression that is no higher than the room left
below the limit has the same outcome in both; a higher one may be stopped instead, and where
functions hand failures on it is then stopped as a whole. One walk over the expression serves
both. -/
namespace JsonQuery

/-- The same functions and the same order of keys, without a limit. -/
def Settings.plain (s : Settings) : Settings :=
  { s with limit := none }

/-- Where functions are candid, no failure of a plain evaluation comes from a limit. -/
def Unlimited (candid : Prop) (e : EvalError) : Prop :=
  candid → ∀ limit, e ≠ .depthExceeded limit

/-- The failure of an evaluation that was stopped at a limit which stops. -/
def StoppedAt (stops : Nat → Prop) (e : EvalError) : Prop :=
  ∃ limit, stops limit ∧ e = .depthExceeded limit

section

variable {stops : Nat → Prop} {candid : Prop}

/-- A plan meets the same outcomes in both, up to the first evaluation that is stopped. -/
theorem beside_plan {limited plain : Nat → Value → Except EvalError Value}
    (each : ∀ index v,
      Beside (Unlimited candid) (StoppedAt stops) (· = ·) (limited index v) (plain index v))
    (plan : Plan) (ends : ∀ limit, stops limit → plan.PassesOn) (honest : candid → plan.Candid) :
    Beside (Unlimited candid) (StoppedAt stops) (· = ·) (plan.outcome limited)
      (plan.outcome plain) := by
  induction plan with
  | answer outcome =>
    cases outcome with
    | ok v => exact .value rfl
    | error e => exact .failure fun may limit same => honest may ⟨limit, by rw [same]⟩
  | ask index v next ih =>
    unfold Plan.outcome
    have outcome := each index v
    generalize limited index v = left at outcome ⊢
    generalize plain index v = right at outcome ⊢
    cases outcome with
    | @value a _ same =>
      subst same
      exact ih _ (fun limit may => (ends limit may).2 _) fun may => honest may _ (by simp [Exceeds])
    | @failure e own =>
      dsimp only
      split
      · exact .failure own
      · exact ih _ (fun limit may => (ends limit may).2 _) fun may =>
          honest may _ (by simpa [Exceeds] using own may)
    | stopped met =>
      obtain ⟨limit, may, rfl⟩ := met
      have goes : abandoned (.error (.depthExceeded limit) : Except EvalError Value) = false := rfl
      simp only [goes, Bool.false_eq_true, if_false, (ends limit may).1]
      exact .stopped ⟨limit, may, rfl⟩

/-- Calls have the same outcome in both, as long as the evaluations that they ask for do. -/
def CallsBeside (stops : Nat → Prop) (candid : Prop) (functions : Registry) : Prop :=
  ∀ name f, functions.get? name = some f → ∀ args plainArgs,
    List.Forall₂
        (ArgumentsMatch (· = ·) (Beside (Unlimited candid) (StoppedAt stops) (· = ·))) args plainArgs →
      Beside (Unlimited candid) (StoppedAt stops) (· = ·) (f.call args) (f.call plainArgs)

private theorem conduct_beside {functions : Registry} (conduct : functions.Conduct)
    (ends : ∀ limit, stops limit → conduct.PassesOn) (honest : candid → conduct.Candid) :
    CallsBeside stops candid functions := by
  intro name f known args plainArgs matched
  rw [conduct.follows name f known args, conduct.follows name f known plainArgs,
    matched_offers matched]
  exact beside_plan (matched_evaluation (Beside.simulation _ _) matched) _
    (fun limit may => ends limit may name f known _) fun may => honest may name f known _

/-- There is room for so many evaluations inside one another below every limit that must not stop
them. -/
def Settings.Room (s : Settings) (stops : Nat → Prop) (depth height : Nat) : Prop :=
  ∀ limit, s.limit = some limit → ¬stops limit → depth + height ≤ limit

private theorem room_part {s : Settings} (room : s.Room stops depth whole) (part : height < whole) :
    s.Room stops (depth + 1) height := by
  intro limit limited going
  have fits := room limit limited going
  omega

/-- With room left, the guard lets an evaluation begin. -/
theorem beside_guard {s : Settings} {body plain : Except EvalError Value}
    (room : s.Room stops depth height) (positive : 0 < height)
    (inside : Beside (Unlimited candid) (StoppedAt stops) (· = ·) body plain) :
    Beside (Unlimited candid) (StoppedAt stops) (· = ·) (Expr.guarded s depth body)
      (Expr.guarded s.plain other plain) := by
  have open_ : Expr.guarded s.plain other plain = plain := rfl
  rw [open_]
  unfold Expr.guarded
  cases reached : s.exceeded? depth with
  | none => exact inside
  | some limit =>
    obtain ⟨limited, deep⟩ := Option.filter_eq_some_iff.mp reached
    by_cases may : stops limit
    · exact .stopped ⟨limit, may, rfl⟩
    · have fits := room limit limited may
      have deep := of_decide_eq_true deep
      omega

end

namespace Expr

section

variable {s : Settings} {stops : Nat → Prop} {candid : Prop}

/-- An evaluation beside the plain one, which does not depend on a depth. -/
theorem eval_beside (calls : CallsBeside stops candid s.functions) (e : Expr) :
    ∀ depth other v, s.Room stops depth e.height →
      Beside (Unlimited candid) (StoppedAt stops) (· = ·) (eval s depth e v)
        (eval s.plain other e v) := by
  induction e using needs_induction with | step e below
  intro depth other v room
  have inside : AgreeBelow (Beside.simulation (Unlimited candid) (StoppedAt stops)) (· = ·)
      (eval s (depth + 1)) (eval s.plain (other + 1)) e := by
    rintro sub needs v _ rfl
    exact below sub needs _ _ v (room_part room (needs_lower needs))
  rw [eval_combine, eval_combine e v]
  refine beside_guard room (height_pos _) ?_
  refine simulated_combine (Beside.simulation _ _) (equal_congruence s.order) inside
    (fun _ _ => rfl) (fun _ _ _ => equal_spreads) ?_ rfl
  rintro name args rfl v _ rfl
  refine simulated_call (Beside.simulation _ _) (equal_congruence s.order)
    (beside_lookup rfl fun _ _ _ => nofun) ?_ (calls name) inside rfl
  exact fun _ _ _ _ => beside_check fun _ _ _ _ => nofun

end

/-- Where the room suffices, a limited evaluation is the plain one, and functions that are candid do
not make it look stopped. -/
theorem eval_plain {s : Settings} (conduct : s.functions.Conduct)
    (fits : ∀ limit, s.limit = some limit → depth + e.height ≤ limit) (other : Nat) (v : Value) :
    eval s depth e v = eval s.plain other e v ∧
      (conduct.Candid → ¬Exceeds (eval s.plain other e v)) := by
  have calls : CallsBeside (fun _ => False) conduct.Candid s.functions :=
    conduct_beside conduct (fun _ => nofun) id
  have both := eval_beside calls e depth other v fun limit limited _ => fits limit limited
  generalize eval s depth e v = limited at both ⊢
  generalize eval s.plain other e v = plain at both ⊢
  cases both with
  | value same => exact ⟨congrArg _ same, fun _ => Library.not_exceeds_ok _⟩
  | failure own =>
    refine ⟨rfl, fun honest ⟨limit, same⟩ => ?_⟩
    cases same
    exact own honest limit rfl
  | stopped met =>
    obtain ⟨_, never, -⟩ := met
    exact never.elim

/-- Where functions hand failures on, a limited evaluation is the plain one or is stopped. -/
theorem eval_plain_or_stopped {s : Settings} (conduct : s.functions.Conduct)
    (ends : conduct.PassesOn) (depth other : Nat) (e : Expr) (v : Value) :
    eval s depth e v = eval s.plain other e v ∨
      ∃ limit, s.limit = some limit ∧ eval s depth e v = .error (.depthExceeded limit) := by
  have calls : CallsBeside (s.limit = some ·) False s.functions :=
    conduct_beside conduct (fun _ _ => ends) nofun
  have both := eval_beside calls e depth other v fun _ limited going => (going limited).elim
  generalize eval s depth e v = limited at both ⊢
  generalize eval s.plain other e v = plain at both ⊢
  cases both with
  | value same => exact .inl (congrArg _ same)
  | failure => exact .inl rfl
  | stopped met =>
    obtain ⟨limit, limited, rfl⟩ := met
    exact .inr ⟨limit, limited, rfl⟩

end Expr

end JsonQuery
