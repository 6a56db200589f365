import JsonQuery.Proofs.PlainEvaluation

/-! Projections one behind the other. A projection whose elements are taken on by a second expression
gives the same as the projection alone with a projection of that expression behind it: what is null
after the first step is dropped in both, before the second step could see it. The two may differ in
which of several failures they meet first, and so they are compared by their values. -/
namespace JsonQuery

/-! ## Items that pass through two steps -/

section

variable {ε : Type}

theorem bind_ok_iff {first : Except ε α} {next : α → Except ε β} :
    first >>= next = .ok b ↔ ∃ a, first = .ok a ∧ next a = .ok b := by
  cases first with
  | ok a => exact ⟨fun rest => ⟨a, rfl, rest⟩, fun ⟨_, same, rest⟩ => by cases same; exact rest⟩
  | error e => exact ⟨nofun, nofun⟩

private theorem pure_ok_iff {a b : α} : (pure a : Except ε α) = .ok b ↔ a = b :=
  iff_of_eq (Except.ok.injEq a b)

/-- The second step on the result of the first, unless that is null. -/
def unlessNull (f g : Value → Except ε Value) (v : Value) : Except ε Value := do
  let base ← f v
  if base.isNull then return .null else g base

variable {f g : Value → Except ε Value}

private theorem project_cons_ok : projectItems f (v :: vs) = .ok ws ↔
    ∃ result, f v = .ok result ∧ ∃ others, projectItems f vs = .ok others ∧
      (if result.isNull then others else result :: others) = ws := by
  simp only [projectItems, bind_ok_iff, pure_ok_iff]

private theorem project_no_null : ∀ {ws}, projectItems f vs = .ok ws → .null ∉ ws := by
  induction vs with
  | nil =>
    intro ws result
    cases result
    exact List.not_mem_nil
  | cons v vs ih =>
    intro ws result
    obtain ⟨first, -, others, rest, rfl⟩ := project_cons_ok.mp result
    split
    · exact ih rest
    · rename_i present
      rw [List.mem_cons, not_or]
      exact ⟨fun null => present (null ▸ rfl), ih rest⟩

/-- One pass with both steps has the values of two passes with a step each. -/
theorem project_fused (vs : List Value) : ∀ ws, projectItems (unlessNull f g) vs = .ok ws ↔
    ∃ mids, projectItems f vs = .ok mids ∧ projectItems g mids = .ok ws := by
  induction vs with
  | nil => exact fun ws => ⟨fun done => ⟨[], rfl, done⟩, fun ⟨_, same, done⟩ => by cases same; exact done⟩
  | cons v vs ih =>
    intro ws
    simp only [project_cons_ok, unlessNull, bind_ok_iff, ih]
    constructor
    · rintro ⟨result, ⟨base, first, second⟩, others, ⟨mids, middle, last⟩, rfl⟩
      refine ⟨_, ⟨base, first, mids, middle, rfl⟩, ?_⟩
      cases null : base.isNull with
      | true =>
        rw [null] at second
        cases second
        exact last
      | false =>
        rw [null] at second
        exact project_cons_ok.mpr ⟨result, second, others, last, rfl⟩
    · rintro ⟨_, ⟨base, first, mids, middle, rfl⟩, last⟩
      cases null : base.isNull with
      | true =>
        rw [null] at last
        exact ⟨.null, ⟨base, first, by rw [null]; rfl⟩, ws, ⟨mids, middle, last⟩, rfl⟩
      | false =>
        rw [null] at last
        obtain ⟨result, second, others, rest, same⟩ := project_cons_ok.mp last
        exact ⟨result, ⟨base, first, by rw [null]; exact second⟩, others, ⟨mids, middle, rest⟩, same⟩

end

namespace Expr

/-! ## Evaluations within the limit -/

section

variable {s : Settings}

private theorem never_stopped (e : EvalError) : ¬StoppedAt (fun _ => False) e :=
  fun ⟨_, never, _⟩ => never

/-- Where no evaluation is stopped, functions are called with the same arguments. -/
theorem calls_unstopped (functions : Registry) : CallsBeside (fun _ => False) False functions := by
  intro name f _ args plainArgs matched
  rw [matched_equal never_stopped matched]
  exact beside_same fun _ _ => nofun

/-- An evaluation that has room below the limit is the plain one, whatever the functions are. -/
theorem eval_roomy (fits : ∀ limit, s.limit = some limit → depth + e.height ≤ limit) (v : Value) :
    eval s depth e v = eval s.plain 0 e v :=
  beside_equal never_stopped (eval_beside (calls_unstopped s.functions) e depth 0 v
    fun limit limited _ => fits limit limited)

/-- The plain evaluation does not depend on a depth. -/
theorem eval_plain_depth (s : Settings) (depth : Nat) (e : Expr) :
    eval s.plain depth e = eval s.plain 0 e :=
  funext (eval_roomy nofun)

end

/-! ## Projections of all kinds -/

/-- The kinds of projections. A filter has a predicate besides what all of them have. -/
inductive Projector where
  | eachItem
  | eachValue
  | flatten
  | filter (predicate : Expr)

namespace Projector

/-- The projection of this kind of a child, with an expression for its elements. -/
def behind : Projector → Expr → Expr → Expr
  | .eachItem => Expr.eachItem
  | .eachValue => Expr.eachValue
  | .flatten => Expr.flatten
  | .filter predicate => fun child projection => Expr.filter child predicate projection

/-- The elements that the value of the child has for the projection, none when it is of another
type. -/
def elements (test : Expr → Value → Except EvalError Value) :
    Projector → Value → Except EvalError (Option (List Value))
  | .eachItem, .arr items => .ok (some items)
  | .eachValue, .obj entries => .ok (some (Dict.values entries))
  | .flatten, .arr items => .ok (some (flattenItems items))
  | .filter predicate, .arr items => do return some (← selectItems (test predicate) items)
  | _, _ => .ok none

end Projector

/-- The array of the results on the elements, null when there are no elements to speak of. -/
def project (f : Value → Except EvalError Value) : Option (List Value) → Except EvalError Value
  | some items => do return .arr (← projectItems f items)
  | none => .ok .null

variable {s : Settings} {depth : Nat} {kind : Projector}

private theorem eval_behind (room : s.exceeded? depth = none) (kind : Projector) (c p : Expr)
    (v : Value) :
    eval s depth (kind.behind c p) v = (do
      let base ← eval s (depth + 1) c v
      let found ← kind.elements (eval s (depth + 1)) base
      project (eval s (depth + 1) p) found) := by
  cases kind with
  | filter predicate =>
    rw [Projector.behind, eval, room]
    cases eval s (depth + 1) c v with
    | error e => rfl
    | ok base =>
      cases base with
      | arr vs => cases selected : selectItems (eval s (depth + 1) predicate) vs <;>
          simp [selected, Projector.elements, project, bind, Except.bind, pure, Except.pure]
      | _ => rfl
  | _ =>
    rw [Projector.behind, eval, room]
    cases eval s (depth + 1) c v with
    | error e => rfl
    | ok base => cases base <;> rfl

private theorem project_ok_null (result : project f found = .ok w) :
    w = .null ∨ ∃ items, w = .arr items ∧ .null ∉ items := by
  cases found with
  | none =>
    cases result
    exact .inl rfl
  | some vs =>
    obtain ⟨items, each, same⟩ := bind_ok_iff.mp result
    cases same
    exact .inr ⟨items, rfl, project_no_null each⟩

/-- What a projection gives is null, or an array in which nothing is null. -/
theorem behind_no_null (result : eval s depth (kind.behind c p) v = .ok w) :
    w = .null ∨ ∃ items, w = .arr items ∧ .null ∉ items := by
  rw [eval_behind (room_of_ok result)] at result
  obtain ⟨base, -, found, -, results⟩ := by simpa only [bind_ok_iff] using result
  exact project_ok_null results

/-- Projecting once with both steps, or with one step each. -/
theorem project_steps (test : Expr → Value → Except EvalError Value)
    (found : Option (List Value)) (w : Value) :
    project (unlessNull f g) found = .ok w ↔
      ∃ mid, project f found = .ok mid ∧
        ∃ next, Projector.eachItem.elements test mid = .ok next ∧ project g next = .ok w := by
  cases found with
  | none =>
    constructor
    · exact fun done => ⟨.null, rfl, none, rfl, done⟩
    · rintro ⟨mid, first, next, second, done⟩
      cases first
      cases second
      exact done
  | some vs =>
    simp only [project, bind_ok_iff, pure_ok_iff, project_fused]
    constructor
    · rintro ⟨ws, ⟨mids, first, second⟩, rfl⟩
      exact ⟨_, ⟨mids, first, rfl⟩, some mids, rfl, bind_ok_iff.mpr ⟨ws, second, rfl⟩⟩
    · rintro ⟨_, ⟨mids, first, rfl⟩, next, same, last⟩
      cases same
      obtain ⟨ws, second, whole⟩ := bind_ok_iff.mp last
      cases whole
      exact ⟨ws, ⟨mids, first, second⟩, rfl⟩

private theorem plain_behind (s : Settings) (kind : Projector) (c p : Expr) (v : Value) :
    eval s.plain 0 (kind.behind c p) v = (do
      let base ← eval s.plain 0 c v
      let found ← kind.elements (eval s.plain 0) base
      project (eval s.plain 0 p) found) := by
  have inner : eval s.plain (0 + 1) = eval s.plain 0 := funext (eval_plain_depth s 1)
  rw [eval_behind rfl, inner]

private theorem plain_dot (s : Settings) (p q : Expr) :
    eval s.plain 0 (.dot p q) = unlessNull (eval s.plain 0 p) (eval s.plain 0 q) := by
  have inner : eval s.plain (0 + 1) = eval s.plain 0 := funext (eval_plain_depth s 1)
  funext v
  rw [eval, inner]
  rfl

/-- A projection whose elements go through two expressions has the same values as a projection behind
it that takes the results of the first expression on to the second. Neither gives an array with a
null in it, nor anything but an array or null. -/
theorem projections_fused (kind : Projector) (c p q : Expr) (v : Value)
    (fits : ∀ limit, s.limit = some limit → depth + (kind.behind c (.dot p q)).height ≤ limit)
    (otherFits : ∀ limit, s.limit = some limit →
      depth + (Expr.eachItem (kind.behind c p) q).height ≤ limit) :
    (∀ w, eval s depth (kind.behind c (.dot p q)) v = .ok w ↔
      eval s depth (.eachItem (kind.behind c p) q) v = .ok w) ∧
    ∀ w, eval s depth (kind.behind c p) v = .ok w →
      w = .null ∨ ∃ items, w = .arr items ∧ .null ∉ items := by
  refine ⟨fun w => ?_, fun w => behind_no_null⟩
  have outer : eval s.plain 0 (.eachItem (kind.behind c p) q) v = _ :=
    plain_behind s .eachItem (kind.behind c p) q v
  rw [eval_roomy fits, eval_roomy otherFits, outer, plain_behind, plain_behind, plain_dot]
  simp only [bind_ok_iff, project_steps (eval s.plain 0)]
  constructor
  · rintro ⟨base, child, found, known, mid, first, rest⟩
    exact ⟨mid, ⟨base, child, found, known, first⟩, rest⟩
  · rintro ⟨mid, ⟨base, child, found, known, first⟩, rest⟩
    exact ⟨base, child, found, known, mid, first, rest⟩

/-- A row may be dropped by the filter, after the first step or after the second. -/
theorem projections_fused_filter :
    let s : Settings := ⟨.builtins, .insertion, some maxEvalDepth⟩
    let kind : Projector := .filter (.field "kept")
    let row (a : Value) := Value.obj [("kept", .bool true), ("a", a)]
    let found (b : Value) := Value.obj [("b", b)]
    let v := Value.arr [row (found (.int 1)), .obj [("a", found (.int 2))], row .null, row (.int 3)]
    let once := kind.behind .current (.dot (.field "a") (.field "b"))
    let twice := Expr.eachItem (kind.behind .current (.field "a")) (.field "b")
    (∀ limit, s.limit = some limit → 0 + once.height ≤ limit) ∧
      (∀ limit, s.limit = some limit → 0 + twice.height ≤ limit) ∧
        eval s 0 twice v = .ok (.arr [.int 1]) ∧ eval s 0 once v = .ok (.arr [.int 1]) := by
  intro s kind row found v once twice
  have fits : ∀ limit, s.limit = some limit → 0 + once.height ≤ limit := by
    rintro _ ⟨⟩
    decide
  have otherFits : ∀ limit, s.limit = some limit → 0 + twice.height ≤ limit := by
    rintro _ ⟨⟩
    decide
  have result : eval s 0 twice v = .ok (.arr [.int 1]) := by rfl
  exact ⟨fits, otherFits, result,
    ((projections_fused kind .current (.field "a") (.field "b") v fits otherFits).1 _).mpr result⟩

end Expr

end JsonQuery
