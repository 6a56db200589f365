import Mathlib.Data.List.Forall2
import JsonQuery.Eval
import JsonQuery.Proofs.LongestPaths
import JsonQuery.Proofs.StableSorting

/-! Two evaluations side by side. A node combines the outcomes of what stands inside it in one and the
same way, whatever kind of computation has them, and so a relation between outcomes that goes through
sequences, and one between values that goes through what nodes do with them, go through a whole
evaluation. The nodes are gone through here, once; what is left to each relation is the guard around
an evaluation and what a function makes of its arguments. -/
namespace JsonQuery

/-! ## One node -/

/-- The value of a field, null where there is none. -/
def Value.fieldOr (name : String) : Value → Value
  | .obj entries => (Dict.find? name entries).getD .null
  | _ => .null

/-- The item at an index, null where there is none. -/
def Value.itemOr (index : Int64) : Value → Value
  | .arr items => itemAt items index
  | _ => .null

/-- The items of a slice, null where there are none. -/
def Value.sliceOr (start stop step : Option Int64) : Value → Value
  | .arr items => sliceItems items start stop step
  | _ => .null

namespace Expr

section

variable {m : Type → Type} [Monad m]

/-- The values of expressions in their order. -/
def evaluateEach (f : Expr → m Value) : List Expr → m (List Value)
  | [] => return []
  | e :: rest => do
    let first ← f e
    let others ← evaluateEach f rest
    return first :: others

/-- The values of the expressions behind keys, in their order. -/
def evaluateEntries (f : Expr → m Value) : List (String × Expr) → m (List (String × Value))
  | [] => return []
  | (key, e) :: rest => do
    let first ← f e
    let others ← evaluateEntries f rest
    return (key, first) :: others

/-- The arguments of a call. A reference is handed on with its evaluation. -/
def resolveEach (f : Expr → Value → m Value) (v : Value) : List Expr → m (List (ArgumentIn m))
  | [] => return []
  | .reference e :: rest => do
    let others ← resolveEach f v rest
    return .expression e (f e) :: others
  | e :: rest => do
    let first ← f e v
    let others ← resolveEach f v rest
    return .value first :: others

/-- What is made of something that a value holds, and null where it holds nothing of the kind. -/
def orNull {γ : Type} (held : Option γ) (onHeld : γ → m Value) : m Value :=
  match held with
  | some c => onHeld c
  | none => return .null

/-- What a node makes of the evaluations inside it, which `f` stands for. -/
def combine (order : ObjectOrder) (f : Expr → Value → m Value)
    (call : String → List Expr → Value → m Value) (e : Expr) (v : Value) : m Value :=
  match e with
  | .identity => return v
  | .current => return v
  | .field name => return v.fieldOr name
  | .index n => return v.itemOr n
  | .slice start stop step => return v.sliceOr start stop step
  | .literal value => return value
  | .dot left right => do
    let base ← f left v
    if base.isNull then return .null else f right base
  | .bracket left right => do
    let base ← f left v
    f right base
  | .flatten child projection => do
    let base ← f child v
    orNull base.toItems? fun items => do
      return .arr (← projectItems (f projection) (flattenItems items))
  | .eachItem child projection => do
    let base ← f child v
    orNull base.toItems? fun items => do
      return .arr (← projectItems (f projection) items)
  | .eachValue child projection => do
    let base ← f child v
    orNull base.toEntries? fun entries => do
      return .arr (← projectItems (f projection) (Dict.values entries))
  | .filter child predicate projection => do
    let base ← f child v
    orNull base.toItems? fun items => do
      let kept ← selectItems (f predicate) items
      return .arr (← projectItems (f projection) kept)
  | .pipe left right => do
    let base ← f left v
    f right base
  | .or left right => do
    let first ← f left v
    if first.isTruthy then return first else f right v
  | .and left right => do
    let first ← f left v
    if first.isTruthy then f right v else return first
  | .not child => do
    let result ← f child v
    return .bool (!result.isTruthy)
  | .compare op left right => do
    let a ← f left v
    let b ← f right v
    return compareValues op a b
  | .list elements =>
    if v.isNull then return .null
    else do return .arr (← evaluateEach (f · v) elements)
  | .hash entries =>
    if v.isNull then return .null
    else do return buildObject order (← evaluateEntries (f · v) entries)
  | .call name args => call name args v
  | .reference _ => return .null

/-- The call of a function, which is looked up and invoked on arguments that its signature admits. What
is known without an evaluation is lifted. -/
def callIn (lift : {α : Type} → Except EvalError α → m α) (functions : Registry)
    (invoke : String → Function → List (ArgumentIn m) → m Value) (f : Expr → Value → m Value)
    (name : String) (args : List Expr) (v : Value) : m Value := do
  let function ← lift (functions.lookup name)
  lift ((function.signature.checkArity name args.length).mapError .call)
  let resolved ← resolveEach f v args
  lift ((function.signature.checkTypes name resolved).mapError .call)
  invoke name function resolved

end

/-! ## The evaluation, node by node -/

variable {s : Settings} {depth : Nat}

/-- An evaluation does not begin where as many are at work as the limit allows. -/
def guarded (s : Settings) (depth : Nat) (body : Except EvalError Value) : Except EvalError Value :=
  match s.exceeded? depth with
  | some limit => .error (.depthExceeded limit)
  | none => body

/-- The call of a function, inside as many evaluations as `depth` says. -/
def callAt (s : Settings) (depth : Nat) : String → List Expr → Value → Except EvalError Value :=
  callIn id s.functions (fun _ => Function.call) (eval s depth)

private theorem eval_list_each (es : List Expr) (v : Value) :
    evalList s depth es v = evaluateEach (eval s depth · v) es := by
  induction es with
  | nil => rfl
  | cons e rest ih => rw [evalList, evaluateEach, ih]

private theorem eval_entries_each (entries : List (String × Expr)) (v : Value) :
    evalEntries s depth entries v = evaluateEntries (eval s depth · v) entries := by
  induction entries with
  | nil => rfl
  | cons entry rest ih => rw [evalEntries, evaluateEntries, ih]

private theorem eval_arguments_each (args : List Expr) (v : Value) :
    evalArguments s depth args v = resolveEach (eval s depth) v args := by
  induction args with
  | nil => rfl
  | cons e rest ih =>
    cases e with
    | reference child => rw [evalArguments, resolveEach, ih]
    | _ => simp only [evalArguments, resolveEach, ih]

/-- Every evaluation is guarded, and behind the guard it is what its node makes of those inside it. -/
theorem eval_combine (e : Expr) (v : Value) : eval s depth e v =
    guarded s depth (combine s.order (eval s (depth + 1)) (callAt s (depth + 1)) e v) := by
  unfold eval guarded
  cases s.exceeded? depth with
  | some limit => rfl
  | none =>
    cases e with
    | field | index | slice => cases v <;> rfl
    | list elements => simp only [eval_list_each, combine]; rfl
    | hash entries => simp only [eval_entries_each, combine]; rfl
    | call name args => simp only [eval_arguments_each, combine, callAt, callIn, id]
    | flatten child projection | eachItem child projection | eachValue child projection
    | filter child predicate projection =>
      simp only [combine]
      refine bind_congr fun base => ?_
      cases base <;> rfl
    | _ => rfl

/-- The evaluation of one expression may need that of another: it stands directly inside, or a reference
that stands there hands it on. -/
def Needs (e sub : Expr) : Prop :=
  sub ∈ e.children ∨ .reference sub ∈ e.children

theorem needs_lower {e : Expr} (needs : e.Needs sub) : sub.height < e.height := by
  obtain child | handed := needs
  · exact child_lower child
  · have lower := child_lower handed
    rw [height] at lower
    omega

theorem needs_nodes {e : Expr} (needs : e.Needs sub) : sub.nodes ⊆ e.nodes := by
  have inside {child : Expr} (member : child ∈ e.children) : child.nodes ⊆ e.nodes := by
    intro node among
    rw [nodes_children]
    exact List.mem_cons_of_mem e (mem_nodes_of.mpr ⟨child, member, among⟩)
  obtain child | handed := needs
  · exact inside child
  · exact fun node among => inside handed (by simp [among])

/-- What holds of an expression when it holds of all that it needs holds of every expression. -/
theorem needs_induction {motive : Expr → Prop}
    (step : ∀ e, (∀ sub, e.Needs sub → motive sub) → motive e) (e : Expr) : motive e := by
  generalize tall : e.height = height
  induction height using Nat.strongRecOn generalizing e with
  | ind height ih =>
    subst tall
    exact step e fun sub needs => ih sub.height (needs_lower needs) sub rfl

end Expr

/-! ## Relations -/

/-- A relation between the outcomes of two kinds of computation that goes through sequences. -/
structure Simulation (m n : Type → Type) [Monad m] [Monad n] where
  holds : {α β : Type} → (α → β → Prop) → m α → n β → Prop
  value : ∀ {α β : Type} {agree : α → β → Prop} {a : α} {b : β}, agree a b →
    holds agree (pure a) (pure b)
  next : ∀ {α β γ δ : Type} {agree : α → β → Prop} {join : γ → δ → Prop} {c : m α} {d : n β}
    {f : α → m γ} {g : β → n δ}, holds agree c d →
      (∀ a b, agree a b → holds join (f a) (g b)) → holds join (c >>= f) (d >>= g)

/-- A relation between values, and what nodes make of them in related ways. The objects of the two
evaluations may be built in different orders. -/
structure Congruence (same : Value → Value → Prop) (order other : ObjectOrder) : Prop where
  null : same .null .null
  bool : ∀ b, same (.bool b) (.bool b)
  arr : List.Forall₂ same as bs → same (.arr as) (.arr bs)
  isNull : same v w → v.isNull = w.isNull
  isTruthy : same v w → v.isTruthy = w.isTruthy
  field : same v w → ∀ name, same (v.fieldOr name) (w.fieldOr name)
  items : same v w → Option.Rel (List.Forall₂ same) v.toItems? w.toItems?
  compare : ∀ op, same a b → same c d → same (compareValues op a c) (compareValues op b d)
  build : List.Forall₂ (fun x y => x.1 = y.1 ∧ same x.2 y.2) xs ys →
    same (buildObject order xs) (buildObject other ys)
  typeName : same v w → v.typeName = w.typeName
  accepts : same v w → ∀ t : DataType, t.acceptsValue v = t.acceptsValue w

section

variable {same : Value → Value → Prop} {order other : ObjectOrder}

theorem nth_related (null : same .null .null) (items : List.Forall₂ same as bs) (i : Nat) :
    same (as[i]?.getD .null) (bs[i]?.getD .null) := by
  have element := related_at items i
  generalize as[i]? = left at element ⊢
  generalize bs[i]? = right at element ⊢
  cases element with
  | none => exact null
  | some value => exact value

private theorem walk_related (items : List.Forall₂ same as bs) (step stop : Int) (steps : Nat)
    (i : Int) :
    List.Forall₂ same (walk as step stop steps i) (walk bs step stop steps i) := by
  induction steps generalizing i with
  | zero => exact .nil
  | succ steps ih =>
    have here : List.Forall₂ same (if i < 0 then none else as[i.toNat]?).toList
        (if i < 0 then none else bs[i.toNat]?).toList := by
      have element := related_at items i.toNat
      generalize as[i.toNat]? = left at element ⊢
      generalize bs[i.toNat]? = right at element ⊢
      split
      · exact .nil
      · cases element with
        | none => exact .nil
        | some value => exact .cons value .nil
    unfold walk
    split
    · refine List.rel_append here ?_
      split
      · exact ih _
      · exact .nil
    · exact .nil

/-- What is made of the items of related arrays is related, if it is where there are items. -/
theorem Congruence.made (congruence : Congruence same order other) (related : same v w)
    {make : List Value → Value}
    (each : ∀ as bs, List.Forall₂ same as bs → same (make as) (make bs)) :
    same ((v.toItems?.map make).getD .null) ((w.toItems?.map make).getD .null) := by
  have held := congruence.items related
  generalize v.toItems? = as at held ⊢
  generalize w.toItems? = bs at held ⊢
  cases held with
  | none => exact congruence.null
  | some items => exact each _ _ items

theorem Congruence.item (congruence : Congruence same order other) (related : same v w)
    (n : Int64) : same (v.itemOr n) (w.itemOr n) := by
  have held (v : Value) : v.itemOr n = (v.toItems?.map (itemAt · n)).getD .null := by
    cases v <;> rfl
  rw [held, held]
  refine congruence.made related fun as bs items => ?_
  unfold itemAt
  dsimp only
  rw [items.length_eq]
  generalize (if n.toInt < 0 then n.toInt + bs.length else n.toInt) = resolved
  split
  · exact congruence.null
  · exact nth_related congruence.null items _

theorem Congruence.slice (congruence : Congruence same order other) (related : same v w)
    (start stop step : Option Int64) :
    same (v.sliceOr start stop step) (w.sliceOr start stop step) := by
  have held (v : Value) : v.sliceOr start stop step =
      (v.toItems?.map (sliceItems · start stop step)).getD .null := by
    cases v <;> rfl
  rw [held, held]
  refine congruence.made related fun as bs items => ?_
  unfold sliceItems
  dsimp only
  rw [items.length_eq]
  split_ifs
  · exact congruence.null
  · exact congruence.arr (walk_related items _ _ _ _)
  · exact congruence.arr (walk_related items _ _ _ _)

end

/-- The entries of related objects have related values, in their orders. -/
def Spreads (same : Value → Value → Prop) : Prop :=
  ∀ v w, same v w → Option.Rel
    (fun entries others => List.Forall₂ same (Dict.values entries) (Dict.values others))
    v.toEntries? w.toEntries?

/-- Related arguments: values, or the same expression with related evaluations. -/
inductive ArgumentsMatch {m n : Type → Type} (same : Value → Value → Prop)
    (ends : m Value → n Value → Prop) : ArgumentIn m → ArgumentIn n → Prop where
  | value (related : same v w) : ArgumentsMatch same ends (.value v) (.value w)
  | expression (each : ∀ v w, same v w → ends (f v) (g w)) :
      ArgumentsMatch same ends (.expression e f) (.expression e g)

section

variable {m n : Type → Type} [Monad m] [Monad n] (R : Simulation m n) {same : Value → Value → Prop}

section

variable {order other : ObjectOrder} (congruence : Congruence same order other)
  {f : Value → m Value} {g : Value → n Value}
include congruence

private theorem simulated_project (each : ∀ v w, same v w → R.holds same (f v) (g w))
    (items : List.Forall₂ same as bs) :
    R.holds (List.Forall₂ same) (projectItems f as) (projectItems g bs) := by
  induction items with
  | nil => exact R.value .nil
  | cons first _ ih =>
    refine R.next (each _ _ first) fun v w result => R.next ih fun vs ws others => ?_
    rw [congruence.isNull result]
    split
    · exact R.value others
    · exact R.value (.cons result others)

private theorem simulated_select (each : ∀ v w, same v w → R.holds same (f v) (g w))
    (items : List.Forall₂ same as bs) :
    R.holds (List.Forall₂ same) (selectItems f as) (selectItems g bs) := by
  induction items with
  | nil => exact R.value .nil
  | cons first _ ih =>
    refine R.next (each _ _ first) fun v w kept => R.next ih fun vs ws others => ?_
    rw [congruence.isTruthy kept]
    split
    · exact R.value (.cons first others)
    · exact R.value others

private theorem simulated_or_null {γ δ : Type} {agree : γ → δ → Prop} {held : Option γ}
    {other : Option δ}
    {onHeld : γ → m Value} {onOther : δ → n Value} (related : Option.Rel agree held other)
    (each : ∀ c d, agree c d → R.holds same (onHeld c) (onOther d)) :
    R.holds same (Expr.orNull held onHeld) (Expr.orNull other onOther) := by
  cases related with
  | none => exact R.value congruence.null
  | some both => exact each _ _ both

private theorem simulated_projected (each : ∀ v w, same v w → R.holds same (f v) (g w))
    (items : List.Forall₂ same as bs) :
    R.holds same (do return .arr (← projectItems f as)) (do return .arr (← projectItems g bs)) :=
  R.next (simulated_project R congruence each items) fun _ _ results =>
    R.value (congruence.arr results)

omit congruence in
theorem flatten_items_or (items : List Value) :
    flattenItems items = items.flatMap fun item => item.toItems?.getD [item] := by
  unfold flattenItems
  congr 1
  funext item
  cases item <;> rfl

private theorem flatten_related (items : List.Forall₂ same as bs) :
    List.Forall₂ same (flattenItems as) (flattenItems bs) := by
  rw [flatten_items_or, flatten_items_or]
  refine List.rel_flatMap items fun v w related => ?_
  have inner := congruence.items related
  generalize v.toItems? = as at inner ⊢
  generalize w.toItems? = bs at inner ⊢
  cases inner with
  | none => exact .cons related .nil
  | some inner => exact inner

end

variable {f : Expr → Value → m Value} {g : Expr → Value → n Value} {v w : Value}

/-- Two evaluators agree on everything that an expression needs. -/
def AgreeBelow (R : Simulation m n) (same : Value → Value → Prop) (f : Expr → Value → m Value)
    (g : Expr → Value → n Value) (e : Expr) : Prop :=
  ∀ sub, e.Needs sub → ∀ v w, same v w → R.holds same (f sub v) (g sub w)

private theorem simulated_each {es : List Expr} (each : ∀ e ∈ es, R.holds same (f e v) (g e w)) :
    R.holds (List.Forall₂ same) (Expr.evaluateEach (f · v) es)
      (Expr.evaluateEach (g · w) es) := by
  induction es with
  | nil => exact R.value .nil
  | cons e rest ih =>
    obtain ⟨first, others⟩ := List.forall_mem_cons.mp each
    exact R.next first fun _ _ value => R.next (ih others) fun _ _ values =>
      R.value (.cons value values)

private theorem simulated_entries {entries : List (String × Expr)}
    (each : ∀ entry ∈ entries, R.holds same (f entry.2 v) (g entry.2 w)) :
    R.holds (List.Forall₂ fun x y => x.1 = y.1 ∧ same x.2 y.2)
      (Expr.evaluateEntries (f · v) entries) (Expr.evaluateEntries (g · w) entries) := by
  induction entries with
  | nil => exact R.value .nil
  | cons entry rest ih =>
    obtain ⟨first, others⟩ := List.forall_mem_cons.mp each
    exact R.next first fun _ _ value => R.next (ih others) fun _ _ values =>
      R.value (.cons ⟨rfl, value⟩ values)

/-- The arguments of a call. A reference hands on evaluations that are related. -/
theorem simulated_arguments (below : AgreeBelow R same f g (.call name args))
    (related : same v w) :
    R.holds (List.Forall₂ (ArgumentsMatch same (R.holds same)))
      (Expr.resolveEach f v args) (Expr.resolveEach g w args) := by
  have each : ∀ e ∈ args, ∀ sub, sub = e ∨ e = .reference sub →
      ∀ v w, same v w → R.holds same (f sub v) (g sub w) := by
    rintro e member sub (rfl | rfl)
    · exact below sub (.inl member)
    · exact below sub (.inr member)
  clear below
  induction args with
  | nil => exact R.value .nil
  | cons e rest ih =>
    obtain ⟨first, others⟩ := List.forall_mem_cons.mp each
    have behind := ih others
    cases e with
    | reference child =>
      exact R.next behind fun _ _ resolved =>
        R.value (.cons (.expression (first child (.inr rfl))) resolved)
    | _ =>
      exact R.next (first _ (.inl rfl) v w related) fun _ _ value =>
        R.next behind fun _ _ resolved => R.value (.cons (.value value) resolved)

/-- Two evaluators that agree on everything that an expression needs agree on the expression, if their
calls do. -/
theorem simulated_combine {order other : ObjectOrder} (congruence : Congruence same order other)
    {call : String → List Expr → Value → m Value}
    {otherCall : String → List Expr → Value → n Value} {e : Expr}
    (below : AgreeBelow R same f g e) (literal : ∀ value, e = .literal value → same value value)
    (spreads : ∀ child projection, e = .eachValue child projection → Spreads same)
    (calls : ∀ name args, e = .call name args → ∀ v w, same v w →
      R.holds same (call name args v) (otherCall name args w))
    (related : same v w) :
    R.holds same (e.combine order f call v) (e.combine other g otherCall w) := by
  have part (sub : Expr) (child : sub ∈ e.children) : ∀ v w, same v w →
      R.holds same (f sub v) (g sub w) := below sub (.inl child)
  cases e with
  | identity | current => exact R.value related
  | literal value => exact R.value (literal value rfl)
  | reference child => exact R.value congruence.null
  | field name => exact R.value (congruence.field related name)
  | index i => exact R.value (congruence.item related i)
  | slice start stop step => exact R.value (congruence.slice related start stop step)
  | dot left right =>
    refine R.next (part left (by simp [Expr.children]) v w related) fun base otherBase first => ?_
    rw [congruence.isNull first]
    split
    · exact R.value congruence.null
    · exact part right (by simp [Expr.children]) base otherBase first
  | bracket left right | pipe left right =>
    exact R.next (part left (by simp [Expr.children]) v w related) (part right (by simp [Expr.children]))
  | flatten child projection =>
    have each := part projection (by simp [Expr.children])
    refine R.next (part child (by simp [Expr.children]) v w related) fun base otherBase first => ?_
    exact simulated_or_null R congruence (congruence.items first) fun _ _ items =>
      simulated_projected R congruence each (flatten_related congruence items)
  | eachItem child projection =>
    have each := part projection (by simp [Expr.children])
    refine R.next (part child (by simp [Expr.children]) v w related) fun base otherBase first => ?_
    exact simulated_or_null R congruence (congruence.items first) fun _ _ items =>
      simulated_projected R congruence each items
  | eachValue child projection =>
    have each := part projection (by simp [Expr.children])
    refine R.next (part child (by simp [Expr.children]) v w related) fun base otherBase first => ?_
    exact simulated_or_null R congruence (spreads child projection rfl base otherBase first)
      fun _ _ values => simulated_projected R congruence each values
  | filter child predicate projection =>
    have test := part predicate (by simp [Expr.children])
    have each := part projection (by simp [Expr.children])
    refine R.next (part child (by simp [Expr.children]) v w related) fun base otherBase first => ?_
    refine simulated_or_null R congruence (congruence.items first) fun _ _ items => ?_
    exact R.next (simulated_select R congruence test items) fun _ _ kept =>
      simulated_projected R congruence each kept
  | or left right =>
    refine R.next (part left (by simp [Expr.children]) v w related) fun result otherResult first => ?_
    rw [congruence.isTruthy first]
    split
    · exact R.value first
    · exact part right (by simp [Expr.children]) v w related
  | and left right =>
    refine R.next (part left (by simp [Expr.children]) v w related) fun result otherResult first => ?_
    rw [congruence.isTruthy first]
    split
    · exact part right (by simp [Expr.children]) v w related
    · exact R.value first
  | not child =>
    refine R.next (part child (by simp [Expr.children]) v w related) fun result otherResult first => ?_
    rw [congruence.isTruthy first]
    exact R.value (congruence.bool _)
  | compare op left right =>
    refine R.next (part left (by simp [Expr.children]) v w related) fun _ _ first => ?_
    refine R.next (part right (by simp [Expr.children]) v w related) fun _ _ second => ?_
    exact R.value (congruence.compare op first second)
  | list elements =>
    simp only [Expr.combine, congruence.isNull related]
    split
    · exact R.value congruence.null
    · exact R.next (simulated_each R fun e member => part e member v w related) fun _ _ items =>
        R.value (congruence.arr items)
  | hash entries =>
    simp only [Expr.combine, congruence.isNull related]
    split
    · exact R.value congruence.null
    · exact R.next (simulated_entries R fun entry member =>
        part entry.2 (List.mem_map_of_mem member) v w related) fun _ _ built =>
          R.value (congruence.build built)
  | call name args => exact calls name args rfl v w related

end

/-- Equal values are treated equally. -/
theorem equal_congruence (order : ObjectOrder) : Congruence (· = ·) order order where
  null := rfl
  bool _ := rfl
  arr items := by rw [List.forall₂_eq_eq_eq] at items; rw [items]
  isNull related := by rw [related]
  isTruthy related := by rw [related]
  field related _ := by rw [related]
  items {v w} related := by
    subst related
    cases v.toItems? with
    | none => exact .none
    | some items => exact .some (List.forall₂_same.mpr fun _ _ => rfl)
  compare _ first second := by rw [first, second]
  build {xs ys} entries := by
    have same : xs = ys := by
      rw [← List.forall₂_eq_eq_eq]
      exact entries.imp fun _ _ both => Prod.ext both.1 both.2
    rw [same]
  typeName related := by rw [related]
  accepts related _ := by rw [related]

theorem equal_spreads : Spreads (· = ·) := by
  rintro v _ rfl
  cases v.toEntries? with
  | none => exact .none
  | some entries => exact .some (List.forall₂_same.mpr fun _ _ => rfl)

/-! ## Calls -/

/-- The function that an error is about. -/
def CallError.function : CallError → String
  | .arity function .. => function
  | .invalidType function .. => function

private theorem arity_names (refused : Signature.checkArity signature name actual = .error c) :
    c.function = name := by
  unfold Signature.checkArity at refused
  dsimp only at refused
  split_ifs at refused <;> (cases refused; rfl)

section

variable {m n : Type → Type} {same : Value → Value → Prop} {name : String}

private theorem types_name (args : List (ArgumentIn m)) :
    ∀ index, Signature.checkTypesFrom signature name index args = .error c → c.function = name := by
  induction args with
  | nil => exact fun _ => nofun
  | cons a rest ih =>
    intro index refused
    unfold Signature.checkTypesFrom at refused
    split at refused
    · split at refused
      · exact ih _ refused
      · cases refused
        rfl
    · exact ih _ refused

/-- Types are checked on what an argument looks like. -/
theorem matched_types {ends : m Value → n Value → Prop} {args : List (ArgumentIn m)}
    {others : List (ArgumentIn n)} (congruence : Congruence same order other)
    (matched : List.Forall₂ (ArgumentsMatch same ends) args others) (signature : Signature)
    (function : String) :
    signature.checkTypes function args = signature.checkTypes function others := by
  unfold Signature.checkTypes
  generalize 0 = index
  induction matched generalizing index with
  | nil => rfl
  | @cons a b _ _ first _ ih =>
    have names : a.typeName = b.typeName := by
      cases first with
      | value related => exact congruence.typeName related
      | expression => rfl
    have taken (p : Parameter) : p.accepts a = p.accepts b := by
      cases first with
      | value related => exact congrArg p.types.any (funext (congruence.accepts related))
      | expression => rfl
    simp only [Signature.checkTypesFrom, ih, names, taken]

variable [Monad m] [Monad n] (R : Simulation m n)

/-- Two calls of a function are related if its lookups are, the errors of its checks, which name it, and
what it makes of related arguments. -/
theorem simulated_call {order other : ObjectOrder} (congruence : Congruence same order other)
    {lift : {α : Type} → Except EvalError α → m α} {functions : Registry}
    {otherLift : {α : Type} → Except EvalError α → n α} {others : Registry}
    {invoke : String → Function → List (ArgumentIn m) → m Value}
    {otherInvoke : String → Function → List (ArgumentIn n) → n Value}
    (found : R.holds (fun f g => f = g ∧ functions.get? name = some f)
      (lift (functions.lookup name)) (otherLift (others.lookup name)))
    (checked : ∀ function, functions.get? name = some function → ∀ outcome : Except CallError Unit,
      (∀ c, outcome = .error c → c.function = name) →
        R.holds (· = ·) (lift (outcome.mapError .call)) (otherLift (outcome.mapError .call)))
    (invoked : ∀ function, functions.get? name = some function → ∀ resolved matching,
      List.Forall₂ (ArgumentsMatch same (R.holds same)) resolved matching →
        R.holds same (invoke name function resolved) (otherInvoke name function matching))
    (below : AgreeBelow R same f g (.call name args)) (related : same v w) :
    R.holds same (Expr.callIn lift functions invoke f name args v)
      (Expr.callIn otherLift others otherInvoke g name args w) := by
  refine R.next found fun function _ ⟨equal, known⟩ => ?_
  subst equal
  refine R.next (checked function known _ fun _ => arity_names) fun _ _ _ => ?_
  refine R.next (simulated_arguments R below related) fun resolved matching matched => ?_
  rw [← matched_types congruence matched]
  refine R.next (checked function known _ fun _ => types_name resolved 0) fun _ _ _ => ?_
  exact invoked function known resolved matching matched

end

/-! ## Outcomes -/

/-- The outcome of one evaluation beside that of another. Values agree as the relation says. Some
failures may be shared, and with some the first evaluation may end alone. -/
inductive Beside (shared alone : EvalError → Prop) {α β : Type} (agree : α → β → Prop) :
    Except EvalError α → Except EvalError β → Prop where
  | value (same : agree a b) : Beside shared alone agree (.ok a) (.ok b)
  | failure (may : shared e) : Beside shared alone agree (.error e) (.error e)
  | stopped (may : alone e) : Beside shared alone agree (.error e) other

section

variable {shared alone : EvalError → Prop} {α β γ δ : Type} {agree : α → β → Prop}
  {join : γ → δ → Prop}

private theorem beside_bind {outcome : Except EvalError α} {other : Except EvalError β}
    {f : α → Except EvalError γ} {g : β → Except EvalError δ}
    (first : Beside shared alone agree outcome other)
    (next : ∀ a b, agree a b → Beside shared alone join (f a) (g b)) :
    Beside shared alone join (outcome >>= f) (other >>= g) := by
  cases first with
  | value same => exact next _ _ same
  | failure may => exact .failure may
  | stopped may => exact .stopped may

variable (shared alone) in
/-- Outcomes stay beside one another through sequences. -/
def Beside.simulation : Simulation (Except EvalError) (Except EvalError) where
  holds := Beside shared alone
  value := .value
  next := beside_bind

/-- Names are looked up in functions that have the same one, or none. -/
theorem beside_lookup {functions others : Registry}
    (same : functions.get? name = others.get? name)
    (missing : functions.get? name = none → shared (.unknownFunction name)) :
    Beside shared alone (fun f g => f = g ∧ functions.get? name = some f)
      (functions.lookup name) (others.lookup name) := by
  unfold Registry.lookup
  rw [← same]
  cases known : functions.get? name with
  | none => exact .failure (missing known)
  | some f => exact .value ⟨rfl, rfl⟩

theorem beside_check {outcome : Except CallError Unit}
    (may : ∀ c, outcome = .error c → shared (.call c)) :
    Beside shared alone (· = ·) (outcome.mapError EvalError.call) (outcome.mapError .call) := by
  cases outcome with
  | ok => exact .value rfl
  | error c => exact .failure (may c rfl)

/-- An outcome is beside itself if its failure may be shared. -/
theorem beside_same {outcome : Except EvalError α} (may : ∀ e, outcome = .error e → shared e) :
    Beside shared alone (· = ·) outcome outcome := by
  cases outcome with
  | ok a => exact .value rfl
  | error e => exact .failure (may e rfl)

/-- Where the first evaluation does not end alone, related outcomes of equal values are equal. -/
theorem beside_equal {outcome other : Except EvalError α} (never : ∀ e, ¬alone e)
    (beside : Beside shared alone (· = ·) outcome other) : outcome = other := by
  cases beside with
  | value same => exact congrArg _ same
  | failure => rfl
  | stopped may => exact absurd may (never _)

theorem matched_equal {args others : List Argument} (never : ∀ e, ¬alone e)
    (matched : List.Forall₂ (ArgumentsMatch (· = ·) (Beside shared alone (· = ·))) args others) :
    args = others := by
  rw [← List.forall₂_eq_eq_eq]
  refine matched.imp fun a b both => ?_
  cases both with
  | value same => exact congrArg _ same
  | expression each => exact congrArg _ (funext fun v => beside_equal never (each v v rfl))

end

end JsonQuery
