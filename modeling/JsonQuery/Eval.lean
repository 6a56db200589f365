import JsonQuery.Expr.Basic
import JsonQuery.Function.Registry
import JsonQuery.Value.Order

/-!
Evaluating expressions. Missing fields and values of the wrong type give null, projections drop
the null results of their elements, and only calls of functions can fail, apart from the limit on
the nesting of evaluations. Without that limit the same evaluation is the plain meaning of an
expression.
-/
namespace JsonQuery

/-- The limit for evaluations inside one another. -/
def maxEvalDepth : Nat := 256

/-- The order of the keys in objects that expressions build. -/
inductive ObjectOrder where
  | insertion
  | sorted
  deriving DecidableEq

/-- What an evaluation depends on besides the expression and the value. -/
structure Settings where
  functions : Registry
  order : ObjectOrder
  limit : Option Nat

/-- The limit, when as many evaluations are at work as it allows. -/
def Settings.exceeded? (s : Settings) (depth : Nat) : Option Nat :=
  s.limit.filter (· ≤ depth)

/-- The item at an index, negative ones counting from the end. -/
def itemAt (items : List Value) (index : Int64) : Value :=
  let i := index.toInt
  let resolved := if i < 0 then i + items.length else i
  if resolved < 0 then .null else items[resolved.toNat]?.getD .null

/-- A bound of a slice as an offset: negative ones count from the end, and one that lies outside
becomes the nearest offset at which a walk with this step can begin or end. -/
def sliceBound (length step : Int) (bound : Option Int64) (default : Int) : Int :=
  match bound with
  | none => default
  | some b =>
    let b := b.toInt
    if b < 0 then
      if 0 ≤ b + length then b + length else if step < 0 then -1 else 0
    else if length ≤ b then if step < 0 then length - 1 else length
    else b

/-- The items met on a walk from `i` in the direction of the step, before the stop. A walk takes at
most one step for each item, and ends when the next offset no longer fits into 64 bits. -/
def walk (items : List Value) (step stop : Int) : (steps : Nat) → Int → List Value
  | 0, _ => []
  | steps + 1, i =>
    if (0 < step ∧ i < stop) ∨ (step < 0 ∧ stop < i) then
      let rest := if fitsInt64 (i + step) then walk items step stop steps (i + step) else []
      (if i < 0 then none else items[i.toNat]?).toList ++ rest
    else []

/-- The items of a slice, null for a step of zero. -/
def sliceItems (items : List Value) (start stop step : Option Int64) : Value :=
  let length : Int := items.length
  let step := (step.map Int64.toInt).getD 1
  if step = 0 then .null
  else if step < 0 then
    let first := sliceBound length step start (length - 1)
    .arr (walk items step (sliceBound length step stop (-1)) items.length first)
  else
    let first := sliceBound length step start 0
    .arr (walk items step (sliceBound length step stop length) items.length first)

/-- The items of an array, with those of arrays among them in their place. -/
def flattenItems (items : List Value) : List Value :=
  items.flatMap fun item =>
    match item with
    | .arr inner => inner
    | other => [other]

/-- The items on which a test is truthy, the first failure being the result. -/
def selectItems {m : Type → Type} [Monad m] (test : Value → m Value) : List Value → m (List Value)
  | [] => return []
  | item :: rest => do
    let kept ← test item
    let others ← selectItems test rest
    return if kept.isTruthy then item :: others else others

/-- The results on each item without those that are null, the first failure being the result. -/
def projectItems {m : Type → Type} [Monad m] (f : Value → m Value) : List Value → m (List Value)
  | [] => return []
  | item :: rest => do
    let result ← f item
    let others ← projectItems f rest
    return if result.isNull then others else result :: others

/-- The comparison of two values. Equality is always defined; the order of values that have none
is null. -/
def compareValues (op : Comparator) (a b : Value) : Value :=
  match op with
  | .equal => .bool (a.deepEq b)
  | .notEqual => .bool (!a.deepEq b)
  | _ =>
    match a.compare? b with
    | some o => .bool (op.holds o)
    | none => .null

/-- The object of the given entries. -/
def buildObject (order : ObjectOrder) (entries : List (String × Value)) : Value :=
  let d := Dict.ofEntries entries
  match order with
  | .insertion => .obj d
  | .sorted => .obj (d.mergeSort fun a b => a.1 ≤ b.1)

namespace Expr

mutual

/-- The value of an expression on a current value, inside as many other evaluations as `depth`
says. -/
def eval (s : Settings) (depth : Nat) (e : Expr) (v : Value) : Except EvalError Value :=
  match s.exceeded? depth with
  | some limit => .error (.depthExceeded limit)
  | none =>
    match e with
    | .identity => .ok v
    | .current => .ok v
    | .field name =>
      match v with
      | .obj entries => .ok ((Dict.find? name entries).getD .null)
      | _ => .ok .null
    | .index n =>
      match v with
      | .arr items => .ok (itemAt items n)
      | _ => .ok .null
    | .slice start stop step =>
      match v with
      | .arr items => .ok (sliceItems items start stop step)
      | _ => .ok .null
    | .literal value => .ok value
    | .dot left right => do
      let base ← eval s (depth + 1) left v
      if base.isNull then return .null else eval s (depth + 1) right base
    | .bracket left right => do
      let base ← eval s (depth + 1) left v
      eval s (depth + 1) right base
    | .flatten child projection => do
      match ← eval s (depth + 1) child v with
      | .arr items =>
        return .arr (← projectItems (eval s (depth + 1) projection) (flattenItems items))
      | _ => return .null
    | .eachItem child projection => do
      match ← eval s (depth + 1) child v with
      | .arr items => return .arr (← projectItems (eval s (depth + 1) projection) items)
      | _ => return .null
    | .eachValue child projection => do
      match ← eval s (depth + 1) child v with
      | .obj entries =>
        return .arr (← projectItems (eval s (depth + 1) projection) (Dict.values entries))
      | _ => return .null
    | .filter child predicate projection => do
      match ← eval s (depth + 1) child v with
      | .arr items =>
        let kept ← selectItems (eval s (depth + 1) predicate) items
        return .arr (← projectItems (eval s (depth + 1) projection) kept)
      | _ => return .null
    | .pipe left right => do
      let base ← eval s (depth + 1) left v
      eval s (depth + 1) right base
    | .or left right => do
      let first ← eval s (depth + 1) left v
      if first.isTruthy then return first else eval s (depth + 1) right v
    | .and left right => do
      let first ← eval s (depth + 1) left v
      if first.isTruthy then eval s (depth + 1) right v else return first
    | .not child => do
      let result ← eval s (depth + 1) child v
      return .bool (!result.isTruthy)
    | .compare op left right => do
      let a ← eval s (depth + 1) left v
      let b ← eval s (depth + 1) right v
      return compareValues op a b
    | .list elements =>
      if v.isNull then .ok .null
      else do return .arr (← evalList s (depth + 1) elements v)
    | .hash entries =>
      if v.isNull then .ok .null
      else do return buildObject s.order (← evalEntries s (depth + 1) entries v)
    | .call name args => do
      let f ← s.functions.lookup name
      (f.signature.checkArity name args.length).mapError .call
      let resolved ← evalArguments s (depth + 1) args v
      (f.signature.checkTypes name resolved).mapError .call
      f.call resolved
    | .reference _ => .ok .null

/-- The values of expressions in their order, the first failure being the result. -/
def evalList (s : Settings) (depth : Nat) (es : List Expr) (v : Value) :
    Except EvalError (List Value) :=
  match es with
  | [] => .ok []
  | e :: rest => do
    let first ← eval s depth e v
    let others ← evalList s depth rest v
    return first :: others

/-- The values of the expressions behind keys, in their order. -/
def evalEntries (s : Settings) (depth : Nat) (entries : List (String × Expr)) (v : Value) :
    Except EvalError (List (String × Value)) :=
  match entries with
  | [] => .ok []
  | (key, e) :: rest => do
    let first ← eval s depth e v
    let others ← evalEntries s depth rest v
    return (key, first) :: others

/-- The arguments of a call. A reference is not evaluated but handed on with its evaluation. -/
def evalArguments (s : Settings) (depth : Nat) (args : List Expr) (v : Value) :
    Except EvalError (List Argument) :=
  match args with
  | [] => .ok []
  | .reference e :: rest => do
    let others ← evalArguments s depth rest v
    return .expression e (eval s depth e) :: others
  | e :: rest => do
    let first ← eval s depth e v
    let others ← evalArguments s depth rest v
    return .value first :: others

end

/-! An evaluation that gives a value had room below the limit, and so had those around it. -/

theorem room_of_ok {s : Settings} (result : eval s depth e v = .ok w) :
    s.exceeded? depth = none := by
  cases room : s.exceeded? depth with
  | none => rfl
  | some limit =>
    rw [eval.eq_def, room] at result
    cases result

theorem room_around {s : Settings} (room : s.exceeded? (depth + 1) = none) :
    s.exceeded? depth = none := by
  unfold Settings.exceeded? at room ⊢
  rw [Option.filter_eq_none_iff] at room ⊢
  intro limit known within
  have inner := room limit known
  simp only [decide_eq_true_eq] at inner within
  omega

end Expr

end JsonQuery
