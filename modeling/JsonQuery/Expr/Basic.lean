import JsonQuery.Comparator
import JsonQuery.Value.Basic

/-!
Expressions. A projection carries the expression that is applied to each of its elements, so what
follows a projection in the text is a child of it and not its parent.
-/
namespace JsonQuery

/-- An expression, evaluated on a current value. -/
inductive Expr where
  /-- The current value, implied and not written. -/
  | identity
  /-- The current value, written as `@`. -/
  | current
  | field (name : String)
  | index (n : Int64)
  | slice (start stop step : Option Int64)
  | literal (value : Value)
  /-- The right expression on the result of the left, unless that is null. -/
  | dot (left right : Expr)
  /-- An index or slice on the result of the left. -/
  | bracket (left right : Expr)
  | flatten (child projection : Expr)
  /-- Each item of an array. -/
  | eachItem (child projection : Expr)
  /-- Each value of an object. -/
  | eachValue (child projection : Expr)
  /-- Each item of an array on which the predicate is truthy. -/
  | filter (child predicate projection : Expr)
  | pipe (left right : Expr)
  | or (left right : Expr)
  | and (left right : Expr)
  | not (child : Expr)
  | compare (op : Comparator) (left right : Expr)
  | list (elements : List Expr)
  | hash (entries : List (String × Expr))
  | call (name : String) (args : List Expr)
  /-- An expression that is handed to a function unevaluated. -/
  | reference (child : Expr)

end JsonQuery
