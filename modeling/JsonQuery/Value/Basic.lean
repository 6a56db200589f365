import JsonQuery.Dict
import JsonQuery.Double.Arithmetic

/-!
The values that documents hold and expressions compute: JSON values in which 64-bit integers and
doubles are kept apart, and objects remember the order of their keys.
-/
namespace JsonQuery

/-- A document value. The entries of an object have distinct keys. No constructor can ask for a
proof of that, because what it says of the entries mentions values, which are only being defined; a
`Document` is a value together with the proof, and reading and searching lead from documents to
documents. -/
inductive Value where
  | null
  | bool (b : Bool)
  | int (n : Int64)
  | float (x : Double)
  | str (s : String)
  | arr (items : List Value)
  | obj (entries : List (String × Value))

namespace Value

instance : Inhabited Value := ⟨.null⟩

/-- Null, false and everything empty are falsy; every number is truthy, zero too. -/
def isTruthy : Value → Bool
  | .null => false
  | .bool b => b
  | .int _ => true
  | .float _ => true
  | .str s => !s.isEmpty
  | .arr items => !items.isEmpty
  | .obj entries => !entries.isEmpty

/-- Whether a value is null. -/
def isNull : Value → Bool
  | .null => true
  | _ => false

/-- Whether a value is a number of either kind. -/
def isNumber : Value → Bool
  | .int _ => true
  | .float _ => true
  | _ => false

/-- Whether a value is a string. -/
def isString : Value → Bool
  | .str _ => true
  | _ => false

/-- The name of the type, one name for both kinds of number. -/
def typeName : Value → String
  | .null => "null"
  | .bool _ => "boolean"
  | .int _ => "number"
  | .float _ => "number"
  | .str _ => "string"
  | .arr _ => "array"
  | .obj _ => "object"

/-- The number as a double; an integer beyond 53 bits is rounded. -/
def toDouble? : Value → Option Double
  | .int n => some (.ofInt n.toInt)
  | .float x => some x
  | _ => none

/-- The text of a string. -/
def toStr? : Value → Option String
  | .str s => some s
  | _ => none

/-- The items of an array. -/
def toItems? : Value → Option (List Value)
  | .arr items => some items
  | _ => none

/-- The entries of an object. -/
def toEntries? : Value → Option (List (String × Value))
  | .obj entries => some entries
  | _ => none

/-- The number equal to a double, as an integer when it is whole and at most `2 ^ 63` in
magnitude; `2 ^ 63` itself becomes the greatest integer. -/
def ofDouble (x : Double) : Value :=
  match x.whole? with
  | some n =>
    if -9223372036854775808 ≤ n ∧ n ≤ 9223372036854775808 then .int (clampInt64 n)
    else .float x
  | none => .float x

end Value

end JsonQuery
