/-!
The six comparison operators: how each is written, and which orders of its operands satisfy it.
-/
namespace JsonQuery

/-- A comparison operator. -/
inductive Comparator where
  | equal
  | notEqual
  | less
  | lessEqual
  | greater
  | greaterEqual
  deriving DecidableEq

namespace Comparator

/-- How the operator is written. -/
def text : Comparator → String
  | .equal => "=="
  | .notEqual => "!="
  | .less => "<"
  | .lessEqual => "<="
  | .greater => ">"
  | .greaterEqual => ">="

/-- Whether the operator needs operands that have an order. -/
def isOrdering : Comparator → Bool
  | .equal => false
  | .notEqual => false
  | _ => true

/-- Whether operands in the given order satisfy the operator. -/
def holds : Comparator → Ordering → Bool
  | .equal, o => o == .eq
  | .notEqual, o => o != .eq
  | .less, o => o == .lt
  | .lessEqual, o => o != .gt
  | .greater, o => o == .gt
  | .greaterEqual, o => o != .lt

end Comparator

end JsonQuery
