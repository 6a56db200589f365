import JsonQuery.Proofs.CalledFunctions
import JsonQuery.Proofs.Failures
import JsonQuery.Proofs.ProjectionFusion

/-! Expressions that give null on null. Each form comes to it in its own way: null is no container, a
list or a hash is not built from it, and where a part gives null the parts behind it are not reached,
whatever they are and however they would fail. The one failure that is left is that of the limit,
where it leaves no room for what is evaluated. -/
namespace JsonQuery

/-- The failure of an evaluation that needs more than the limit. -/
def Settings.Stops (s : Settings) (need : Nat) (failure : EvalError) : Prop :=
  ∃ limit, s.limit = some limit ∧ limit < need ∧ failure = .depthExceeded limit

section

variable {s : Settings} {holds : Value → Prop} {outcome : Except EvalError Value}

private theorem ends_within (ends : EndsAs (s.Stops need) holds outcome) (within : need ≤ whole) :
    EndsAs (s.Stops whole) holds outcome := by
  cases outcome with
  | ok v => exact ends
  | error failure =>
    obtain ⟨limit, limited, short, same⟩ := ends
    exact ⟨limit, limited, Nat.lt_of_lt_of_le short within, same⟩

/-- A part of an expression is evaluated one level down. -/
theorem ends_part (ends : EndsAs (s.Stops (depth + 1 + height)) holds outcome)
    (part : height ≤ whole) : EndsAs (s.Stops (depth + (whole + 1))) holds outcome :=
  ends_within ends (by omega)

/-- The guard fails only where there is no room for the root. -/
theorem ends_guarded (positive : 0 < height)
    (inside : EndsAs (s.Stops (depth + height)) holds outcome) :
    EndsAs (s.Stops (depth + height)) holds (match s.exceeded? depth with
      | some limit => .error (.depthExceeded limit)
      | none => outcome) := by
  cases reached : s.exceeded? depth with
  | none => exact inside
  | some limit =>
    obtain ⟨limited, deep⟩ := Option.filter_eq_some_iff.mp reached
    have deep := of_decide_eq_true deep
    exact ⟨limit, limited, by omega, rfl⟩

end

/-- Null has no order with any value. -/
theorem compare_null_left (ordering : op.isOrdering) (v : Value) :
    compareValues op .null v = .null := by
  have unordered : Value.compare? .null v = none := by
    cases v <;> rfl
  cases op with
  | equal | notEqual => cases ordering
  | _ => simp only [compareValues, unordered]

private theorem compare_null_right (ordering : op.isOrdering) (v : Value) :
    compareValues op v .null = .null := by
  have unordered : Value.compare? v .null = none := by
    cases v <;> rfl
  cases op with
  | equal | notEqual => cases ordering
  | _ => simp only [compareValues, unordered]

namespace Expr

/-- Nothing in the expression is a call. -/
def Uncalling (e : Expr) : Prop :=
  ∀ name, ¬e.Calls name

/-- Null on null, by the form of the expression alone. Nothing is asked of the parts that null keeps
from being reached. -/
inductive NullStrict : Expr → Prop where
  | identity : NullStrict .identity
  | current : NullStrict .current
  | field : NullStrict (.field name)
  | index : NullStrict (.index n)
  | slice : NullStrict (.slice start stop step)
  | reference : NullStrict (.reference child)
  | list : NullStrict (.list elements)
  | hash : NullStrict (.hash entries)
  | dot (left : NullStrict l) : NullStrict (.dot l r)
  | and (left : NullStrict l) : NullStrict (.and l r)
  | bracket (left : NullStrict l) (right : NullStrict r) : NullStrict (.bracket l r)
  | pipe (left : NullStrict l) (right : NullStrict r) : NullStrict (.pipe l r)
  | or (left : NullStrict l) (right : NullStrict r) : NullStrict (.or l r)
  | compareLeft (ordering : op.isOrdering) (left : NullStrict l) (other : r.Uncalling) :
      NullStrict (.compare op l r)
  | compareRight (ordering : op.isOrdering) (other : l.Uncalling) (right : NullStrict r) :
      NullStrict (.compare op l r)
  | flatten (child : NullStrict c) : NullStrict (.flatten c p)
  | eachItem (child : NullStrict c) : NullStrict (.eachItem c p)
  | eachValue (child : NullStrict c) : NullStrict (.eachValue c p)
  | filter (child : NullStrict c) : NullStrict (.filter c q p)

section

variable {s : Settings}

private theorem empty_knows_none (known : Registry.empty.get? name = some f) : False := by
  have nothing : Registry.empty.get? name = none := rfl
  rw [nothing] at known
  cases known

/-- A registry without functions has no call to go about. -/
def emptyConduct : Registry.empty.Conduct :=
  ⟨fun _ _ => .answer (.ok .null), fun _ _ known => (empty_knows_none known).elim⟩

/-- Without a call an expression has a value under all functions, if there is room for it. -/
theorem uncalling_ends (uncalling : e.Uncalling) (depth : Nat) (v : Value) :
    EndsAs (s.Stops (depth + e.height)) (fun _ => True) (eval s depth e v) := by
  -- No function is asked for, so there may as well be none.
  let bare : Settings := ⟨.empty, s.order, s.limit⟩
  have same : eval s depth e v = eval bare depth e v :=
    congrFun (eval_called e depth fun name args member => absurd ⟨args, member⟩ (uncalling name)) v
  have plain : FailsAs (fun _ => False) (eval bare.plain 0 e v) :=
    eval_fails ⟨rfl, fun _ _ known => (empty_knows_none known).elim⟩ e 0 v
      fun name args _ member _ => uncalling name ⟨args, member⟩
  rw [same]
  by_cases fits : ∀ limit, bare.limit = some limit → depth + e.height ≤ limit
  · rw [eval_roomy fits]
    generalize eval bare.plain 0 e v = outcome at plain ⊢
    cases outcome with
    | ok w => trivial
    | error failure => exact plain.elim
  · push Not at fits
    obtain ⟨limit, limited, short⟩ := fits
    obtain equal | ⟨_, again, stopped⟩ :=
      eval_plain_or_stopped (s := bare) emptyConduct
        (fun _ _ known => (empty_knows_none known).elim) depth 0 e v
    · rw [equal]
      generalize eval bare.plain 0 e v = outcome at plain ⊢
      cases outcome with
      | ok w => trivial
      | error failure => exact plain.elim
    · cases again.symm.trans limited
      rw [stopped]
      exact ⟨limit, limited, short, rfl⟩

/-- On null a strict expression gives null, or is stopped at a limit that it is too high for. -/
theorem null_strict_ends (strict : NullStrict e) : ∀ depth,
    EndsAs (s.Stops (depth + e.height)) (· = .null) (eval s depth e .null) := by
  induction strict with
  | identity | current | field | index | slice | reference | list | hash =>
    intro depth
    unfold eval
    exact ends_guarded (height_pos _) rfl
  | dot _ first | and _ first =>
    intro depth
    unfold eval
    refine ends_guarded (height_pos _) (ends_then (ends_part (first _) (le_max_left ..)) ?_)
    rintro _ rfl
    exact rfl
  | bracket _ _ first second | pipe _ _ first second | or _ _ first second =>
    intro depth
    unfold eval
    refine ends_guarded (height_pos _) (ends_then (ends_part (first _) (le_max_left ..)) ?_)
    rintro _ rfl
    exact ends_part (second _) (le_max_right ..)
  | compareLeft ordering _ other first =>
    intro depth
    unfold eval
    refine ends_guarded (height_pos _) (ends_then (ends_part (first _) (le_max_left ..)) ?_)
    rintro _ rfl
    refine ends_then (ends_part (uncalling_ends other _ _) (le_max_right ..)) fun w _ => ?_
    exact compare_null_left ordering w
  | compareRight ordering other _ second =>
    intro depth
    unfold eval
    refine ends_guarded (height_pos _)
      (ends_then (ends_part (uncalling_ends other _ _) (le_max_left ..)) fun w _ => ?_)
    refine ends_then (ends_part (second _) (le_max_right ..)) ?_
    rintro _ rfl
    exact compare_null_right ordering w
  | flatten _ child | eachItem _ child | eachValue _ child | filter _ child =>
    intro depth
    unfold eval
    refine ends_guarded (height_pos _) (ends_then (ends_part (child _) (le_max_left ..)) ?_)
    rintro _ rfl
    exact rfl

/-- Where the limit leaves room for it, a strict expression gives null on null. -/
theorem null_strict_null (strict : NullStrict e)
    (fits : ∀ limit, s.limit = some limit → depth + e.height ≤ limit) :
    eval s depth e .null = .ok .null := by
  have ends := null_strict_ends (s := s) strict depth
  generalize eval s depth e .null = outcome at ends ⊢
  cases outcome with
  | ok v => exact congrArg _ ends
  | error failure =>
    obtain ⟨limit, limited, short, -⟩ := ends
    exact absurd (fits limit limited) (Nat.not_le.mpr short)

/-- A dot and a pipe differ only where the left side gives null, on which the pipe evaluates its right
side one level down. -/
theorem dot_pipe_strict (strict : NullStrict r) (l : Expr) (depth : Nat) (v : Value) :
    eval s depth (.dot l r) v = eval s depth (.pipe l r) v ∨
      eval s depth (.dot l r) v = .ok .null ∧ ∃ limit, s.limit = some limit ∧
        limit < depth + 1 + r.height ∧
          eval s depth (.pipe l r) v = .error (.depthExceeded limit) := by
  unfold eval
  cases s.exceeded? depth with
  | some limit => exact .inl rfl
  | none =>
    dsimp only
    cases eval s (depth + 1) l v with
    | error failure => exact .inl rfl
    | ok base =>
      cases base with
      | null =>
        have ends := null_strict_ends (s := s) strict (depth + 1)
        simp only [bind, Except.bind, Value.isNull, if_pos]
        generalize eval s (depth + 1) r .null = outcome at ends ⊢
        cases outcome with
        | ok w => exact .inl (congrArg _ ends.symm)
        | error failure =>
          obtain ⟨limit, limited, short, rfl⟩ := ends
          exact .inr ⟨rfl, limit, limited, short, rfl⟩
      | _ => exact .inl rfl

end

/-- Within the limit a strict expression gives null on null, whatever the functions and the order of
objects. Behind a strict expression that is at least one level lower than the limit, a dot is the same
as a pipe on every value. A higher one may be stopped behind a pipe where the dot gives null, and makes
no other difference. -/
theorem null_strict_propagates (o : Options) :
    (∀ e : Expr, e.NullStrict → e.deeperThan maxEvalDepth = false →
      e.evaluate o .null = .ok .null) ∧
    ∀ l r : Expr, r.NullStrict → ∀ v,
      (r.deeperThan (maxEvalDepth - 1) = false →
        (Expr.dot l r).evaluate o v = (Expr.pipe l r).evaluate o v) ∧
      ((Expr.dot l r).evaluate o v = (Expr.pipe l r).evaluate o v ∨
        (Expr.dot l r).evaluate o v = .ok .null ∧
          (Expr.pipe l r).evaluate o v = .error (.depthExceeded maxEvalDepth)) := by
  refine ⟨fun e strict shallow => ?_, fun l r strict v => ?_⟩
  · have short := (within_limit_iff e maxEvalDepth).mp shallow
    refine null_strict_null strict ?_
    rintro _ ⟨⟩
    rwa [Nat.zero_add]
  · obtain same | ⟨null, limit, limited, short, stopped⟩ :=
      dot_pipe_strict (s := o.settings) strict l 0 v
    · exact ⟨fun _ => same, .inl same⟩
    · cases limited
      refine ⟨fun lower => ?_, .inr ⟨null, stopped⟩⟩
      have lower := (within_limit_iff r (maxEvalDepth - 1)).mp lower
      simp only [maxEvalDepth] at lower short
      omega

/-- Neither the unknown function behind the dot nor the one in the list is ever called. -/
theorem null_strict_propagates_unreached :
    let o : Options := ⟨.sorted, .empty⟩
    let e := Expr.compare .less (.dot (.field "a") (.call "f" [])) (.literal (.int 1))
    let r := Expr.list [.call "f" []]
    e.NullStrict ∧ e.deeperThan maxEvalDepth = false ∧ e.evaluate o .null = .ok .null ∧
      r.NullStrict ∧ r.deeperThan (maxEvalDepth - 1) = false ∧
        (Expr.dot e r).evaluate o .null = (Expr.pipe e r).evaluate o .null := by
  intro o e r
  have strict : e.NullStrict := .compareLeft rfl (.dot .field) (by simp [Uncalling, Calls])
  have shallow : e.deeperThan maxEvalDepth = false := by rfl
  have lower : r.deeperThan (maxEvalDepth - 1) = false := by rfl
  exact ⟨strict, shallow, (null_strict_propagates o).1 e strict shallow, .list, lower,
    ((null_strict_propagates o).2 e r .list .null).1 lower⟩

/-! ## As high as the limit -/

/-- Pipes inside each other, all of which hand the current value on. -/
def pipes (n : Nat) : Expr :=
  Nat.repeat (.pipe .current) n .current

private theorem pipes_succ (n : Nat) : pipes (n + 1) = .pipe .current (pipes n) :=
  rfl

private theorem pipes_strict (n : Nat) : (pipes n).NullStrict := by
  induction n with
  | zero => exact .current
  | succ n ih => exact .pipe .current ih

private theorem pipes_height (n : Nat) : (pipes n).height = n + 1 := by
  induction n with
  | zero => rfl
  | succ n ih =>
    rw [pipes_succ, height, height, ih]
    omega

/-- A value of the outermost pipe leaves room for what is innermost. -/
theorem pipes_room (result : eval s depth (pipes n) v = .ok w) :
    s.exceeded? (depth + n) = none := by
  induction n generalizing depth v with
  | zero => exact room_of_ok result
  | succ n ih =>
    have room := room_of_ok result
    rw [pipes_succ, eval.eq_def, room] at result
    obtain ⟨base, -, inner⟩ := bind_ok_iff.mp result
    have within := ih inner
    rwa [Nat.add_assoc, Nat.add_comm 1] at within

private theorem pipes_stopped {s : Settings} (depth n : Nat) (limited : s.limit = some limit)
    (deep : limit ≤ depth + n) : eval s depth (pipes n) .null = .error (.depthExceeded limit) := by
  have ends := null_strict_ends (s := s) (pipes_strict n) depth
  cases outcome : eval s depth (pipes n) .null with
  | ok v =>
    have room := pipes_room outcome
    simp only [Settings.exceeded?, limited, Option.filter_some, decide_eq_true_eq,
      if_pos deep] at room
    cases room
  | error failure =>
    rw [outcome] at ends
    obtain ⟨reached, same, -, rfl⟩ := ends
    cases same.symm.trans limited
    rfl

/-- An expression as high as the limit gives null on null by itself, and is stopped one level down. -/
theorem pipe_stopped_below :
    (pipes 255).NullStrict ∧ (pipes 255).deeperThan maxEvalDepth = false ∧
      (Expr.dot .current (pipes 255)).evaluate .standard .null = .ok .null ∧
        (Expr.pipe .current (pipes 255)).evaluate .standard .null =
          .error (.depthExceeded maxEvalDepth) := by
  have shallow := (within_limit_iff (pipes 255) maxEvalDepth).mpr (pipes_height 255).le
  have stopped := pipes_stopped (s := Options.standard.settings) 0 (255 + 1) rfl (by decide)
  rw [pipes_succ] at stopped
  exact ⟨pipes_strict 255, shallow, by rfl, stopped⟩

end Expr

end JsonQuery
