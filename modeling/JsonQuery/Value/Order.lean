import JsonQuery.Value.Basic

/-!
Order and equality of values. Numbers are ordered by value across their two kinds, strings by code
points, and nothing else is ordered. Equality is deep, and the order of keys in an object does not
count.
-/
namespace JsonQuery.Value

/-- The order of two numbers or of two strings. Two integers are compared exactly, any other two
numbers as doubles. -/
def compare? : Value → Value → Option Ordering
  | .int a, .int b => some (compare a.toInt b.toInt)
  | .str a, .str b => some (compare a b)
  | a, b => do (← a.toDouble?).compare? (← b.toDouble?)

/-- Whether the first of two comparable values is less. -/
def less (a b : Value) : Bool :=
  a.compare? b == some .lt

mutual

/-- Deep equality: numbers by value, arrays item by item, objects key by key in any order. -/
def deepEq : Value → Value → Bool
  | .null, .null => true
  | .bool a, .bool b => a == b
  | .int a, b => compare? (.int a) b == some .eq
  | .float a, b => compare? (.float a) b == some .eq
  | .str a, .str b => a == b
  | .arr a, .arr b => itemsEq a b
  | .obj a, .obj b => a.length == b.length && entriesFound a b
  | _, _ => false

/-- Item by item, with equal lengths. -/
def itemsEq : List Value → List Value → Bool
  | [], [] => true
  | a :: as, b :: bs => deepEq a b && itemsEq as bs
  | _, _ => false

/-- Every entry of the first list is found, with an equal value, in the second dictionary. -/
def entriesFound : List (String × Value) → List (String × Value) → Bool
  | [], _ => true
  | (key, a) :: rest, others =>
    (match Dict.find? key others with
      | some b => deepEq a b
      | none => false) && entriesFound rest others

end

end JsonQuery.Value
