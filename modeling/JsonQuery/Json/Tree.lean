import JsonQuery.Value.Basic

/-!
Trees of JSON, which stand between texts and document values. A number of a tree is whole and fits
into 64 bits, with a sign or without, or it is a finite double. Documents know only whole numbers
with a sign, and doubles of every kind, so the ways between the two are conversions.
-/
namespace JsonQuery.Json

/-- A number of a tree. -/
inductive Number where
  | whole (n : Int) (inRange : -9223372036854775808 ≤ n ∧ n ≤ 18446744073709551615)
  | real (x : Double) (finite : x.isFinite = true)

namespace Number

/-- The whole number, when it is in range. -/
def ofInt? (n : Int) : Option Number :=
  if inRange : -9223372036854775808 ≤ n ∧ n ≤ 18446744073709551615 then some (.whole n inRange)
  else none

/-- The double, when it is finite. -/
def ofDouble? (x : Double) : Option Number :=
  if finite : x.isFinite = true then some (.real x finite) else none

theorem ofInt64_range (n : Int64) :
    -9223372036854775808 ≤ n.toInt ∧ n.toInt ≤ 18446744073709551615 := by
  have lower := n.le_toInt
  have upper := n.toInt_lt
  omega

/-- A whole number with a sign is always in range. -/
def ofInt64 (n : Int64) : Number :=
  .whole n.toInt (ofInt64_range n)

/-- The number in a document. A whole number beyond the range of those with a sign is rounded to a
double. -/
def toValue : Number → Value
  | .whole n _ =>
    match toInt64? n with
    | some i => .int i
    | none => .float (.ofInt n)
  | .real x _ => .float x

end Number

/-- A JSON value. The keys of an object are distinct, as in a document. -/
inductive Tree where
  | null
  | bool (b : Bool)
  | number (n : Number)
  | str (s : String)
  | arr (items : List Tree)
  | obj (entries : List (String × Tree))

namespace Tree

mutual

/-- The document value of a tree. -/
def toValue : Tree → Value
  | .null => .null
  | .bool b => .bool b
  | .number n => n.toValue
  | .str s => .str s
  | .arr items => .arr (toItems items)
  | .obj entries => .obj (toEntries entries)

/-- The items of an array as document values. -/
def toItems : List Tree → List Value
  | [] => []
  | item :: rest => toValue item :: toItems rest

/-- The entries of an object with their values as document values. -/
def toEntries : List (String × Tree) → List (String × Value)
  | [] => []
  | (key, t) :: rest => (key, toValue t) :: toEntries rest

end

mutual

/-- The tree of a document value. A double that is not finite has no number and becomes null. -/
def ofValue : Value → Tree
  | .null => .null
  | .bool b => .bool b
  | .int n => .number (.ofInt64 n)
  | .float x =>
    match Number.ofDouble? x with
    | some n => .number n
    | none => .null
  | .str s => .str s
  | .arr items => .arr (ofItems items)
  | .obj entries => .obj (ofEntries entries)

/-- The items of an array as trees. -/
def ofItems : List Value → List Tree
  | [] => []
  | item :: rest => ofValue item :: ofItems rest

/-- The entries of an object with their values as trees. -/
def ofEntries : List (String × Value) → List (String × Tree)
  | [] => []
  | (key, v) :: rest => (key, ofValue v) :: ofEntries rest

end

theorem toItems_map (items : List Tree) : toItems items = items.map toValue := by
  induction items with
  | nil => rfl
  | cons item rest ih => rw [toItems, ih, List.map_cons]

theorem toEntries_map (entries : List (String × Tree)) :
    toEntries entries = entries.map fun e => (e.1, toValue e.2) := by
  induction entries with
  | nil => rfl
  | cons e rest ih => rw [toEntries, ih, List.map_cons]

theorem ofItems_map (items : List Value) : ofItems items = items.map ofValue := by
  induction items with
  | nil => rfl
  | cons item rest ih => rw [ofItems, ih, List.map_cons]

theorem ofEntries_map (entries : List (String × Value)) :
    ofEntries entries = entries.map fun e => (e.1, ofValue e.2) := by
  induction entries with
  | nil => rfl
  | cons e rest ih => rw [ofEntries, ih, List.map_cons]

end Tree

end JsonQuery.Json
