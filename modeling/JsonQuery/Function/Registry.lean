import JsonQuery.Dict
import JsonQuery.Function.Signature

/-!
Tables of functions. A registry maps names to functions; registering a name again replaces its
function, and a changed registry leaves every other one as it is. Names are listed in code point
order.
-/
namespace JsonQuery

/-- A signature and what a call computes. The arguments of a call are expected to fit. -/
structure Function where
  signature : Signature
  call : List Argument → Except EvalError Value

/-- A table of functions, each name with one function. -/
structure Registry where
  entries : Dict Function
  distinct : entries.Distinct

namespace Registry

/-- The registry without functions. -/
def empty : Registry :=
  ⟨[], List.nodup_nil⟩

/-- Adds a function, or replaces the one of that name. -/
def register (r : Registry) (name : String) (f : Function) : Registry :=
  ⟨r.entries.insert name f, Dict.distinct_insert r.distinct name f⟩

/-- The function registered under a name. -/
def get? (r : Registry) (name : String) : Option Function :=
  r.entries.find? name

/-- The function of a name that has to be known. -/
def lookup (r : Registry) (name : String) : Except EvalError Function :=
  match r.get? name with
  | some f => .ok f
  | none => .error (.unknownFunction name)

/-- Whether a function is registered under a name. -/
def contains (r : Registry) (name : String) : Bool :=
  (r.get? name).isSome

/-- The names in ascending order. -/
def names (r : Registry) : List String :=
  r.entries.keys.mergeSort

/-- The number of names. -/
def size (r : Registry) : Nat :=
  r.entries.length

/-- Whether there are no names. -/
def isEmpty (r : Registry) : Bool :=
  r.entries.isEmpty

/-- One line for each function, in the order of the names. -/
def describe (r : Registry) : String :=
  String.join (r.names.map fun name =>
    match r.get? name with
    | some f => name ++ f.signature.text ++ "\n"
    | none => "")

end Registry

end JsonQuery
