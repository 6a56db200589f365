import JsonQuery.Function.Registry
import JsonQuery.Json.Write
import JsonQuery.Sorting.Extreme
import JsonQuery.Sorting.Stable
import JsonQuery.Text.Number
import JsonQuery.Text.Search
import JsonQuery.Value.Arithmetic
import JsonQuery.Value.Order

/-!
The functions that every expression can call. A call is checked against the signature first, so a
function treats only the shapes that its signature admits and gives null for all others.
-/
namespace JsonQuery.Library

/-- The value of an argument, null when there is none. -/
def valueAt (args : List Argument) (index : Nat) : Value :=
  (args[index]?.map ArgumentIn.toValue).getD .null

/-- The items of an argument, none when it is no array. -/
def itemsAt (args : List Argument) (index : Nat) : List Value :=
  (valueAt args index).toItems?.getD []

/-- The evaluation of an argument that has to be an expression. -/
def expressionAt (function : String) (args : List Argument) (index : Nat) :
    Except EvalError (Value → Except EvalError Value) :=
  match args[index]?.bind ArgumentIn.eval? with
  | some eval => .ok eval
  | none =>
    .error (.call (.invalidType function index [.reference] (valueAt args index).typeName))

/-- The magnitude of a number. The least integer has none, and becomes a double. -/
def abs : Value → Value
  | .int n =>
    match toInt64? n.toInt.natAbs with
    | some m => .int m
    | none => .float (Double.ofInt n.toInt).abs
  | .float x => .float x.abs
  | _ => .null

/-- The mean of numbers, always as a double. -/
def avg (items : List Value) : Value :=
  match items with
  | [] => .null
  | _ =>
    match (Value.sum items).toDouble? with
    | some total => .float (total.div (.ofInt items.length))
    | none => .null

/-- A number rounded to a whole one. Integers stay as they are. -/
def rounded (round : Double → Double) : Value → Value
  | .float x => .ofDouble (round x)
  | v => v

/-- The least whole number that is not below a number. -/
def ceil : Value → Value :=
  rounded Double.ceil

/-- The greatest whole number that is not above a number. -/
def floor : Value → Value :=
  rounded Double.floor

/-- Whether an array has an equal item, or a string has the text inside. -/
def contains : Value → Value → Value
  | .arr items, v => .bool (items.any (·.deepEq v))
  | .str s, .str piece => .bool (occursIn piece.toList s.toList)
  | _, _ => .bool false

/-- Whether a string begins with a piece of text. -/
def startsWith : Value → Value → Value
  | .str s, .str piece => .bool (piece.toList.isPrefixOf s.toList)
  | _, _ => .null

/-- Whether a string ends with a piece of text. -/
def endsWith : Value → Value → Value
  | .str s, .str piece => .bool (piece.toList.isSuffixOf s.toList)
  | _, _ => .null

/-- The strings of an array with the glue between them. -/
def join (glue : Value) (items : List Value) : Value :=
  .str ((glue.toStr?.getD "").intercalate (items.filterMap Value.toStr?))

/-- The keys of an object, in their order. -/
def keys : Value → Value
  | .obj entries => .arr (entries.map fun entry => .str entry.1)
  | _ => .null

/-- The values of an object, in the order of its keys. -/
def values : Value → Value
  | .obj entries => .arr (entries.map Prod.snd)
  | _ => .null

/-- The number of characters, items or entries. -/
def length : Value → Value
  | .str s => .int (clampInt64 s.length)
  | .arr items => .int (clampInt64 items.length)
  | .obj entries => .int (clampInt64 entries.length)
  | _ => .null

/-- The results of an expression on every item, null results included. -/
def map (args : List Argument) : Except EvalError Value := do
  let eval ← expressionAt "map" args 0
  return .arr (← (itemsAt args 1).mapM eval)

/-- The last of the greatest items, null when there are none. -/
def max (items : List Value) : Value :=
  (lastGreatest? Value.less items).getD .null

/-- The first of the least items, null when there are none. -/
def min (items : List Value) : Value :=
  (firstLeast? Value.less items).getD .null

/-- The type that a key has to have: a number or a string. -/
def keyType? : Value → Option DataType
  | .int _ => some .number
  | .float _ => some .number
  | .str _ => some .string
  | _ => none

/-- Pairs each item with its key. All keys are numbers, or all are strings; the first key decides,
and the first key that does not fit is the error. -/
def keyed (function : String) (eval : Value → Except EvalError Value) :
    (required : Option DataType) → List Value → Except EvalError (List (Value × Value))
  | _, [] => .ok []
  | required, item :: rest => do
    let key ← eval item
    let expected := required.elim [.number, .string] ([·])
    match keyType? key with
    | some t =>
      if t ∈ expected then
        let pairs ← keyed function eval (some t) rest
        return (key, item) :: pairs
      else .error (.call (.invalidType function 1 expected key.typeName))
    | none => .error (.call (.invalidType function 1 expected key.typeName))

/-- The items of the first argument with their keys under the expression of the second. -/
def keyedItems (function : String) (args : List Argument) :
    Except EvalError (List (Value × Value)) := do
  let eval ← expressionAt function args 1
  keyed function eval none (itemsAt args 0)

/-- Whether the key of the first pair is less. -/
def lessByKey (a b : Value × Value) : Bool :=
  a.1.less b.1

/-- The last of the items with the greatest key, null when there are none. -/
def maxBy (args : List Argument) : Except EvalError Value := do
  return ((lastGreatest? lessByKey (← keyedItems "max_by" args)).map Prod.snd).getD .null

/-- The first of the items with the least key, null when there are none. -/
def minBy (args : List Argument) : Except EvalError Value := do
  return ((firstLeast? lessByKey (← keyedItems "min_by" args)).map Prod.snd).getD .null

/-- The items in ascending order. The evaluation is abandoned when they have none. -/
def ascending {α : Type} (less : α → α → Bool) (items : List α) : Except EvalError (List α) :=
  match sortStable? less items with
  | some sorted => .ok sorted
  | none => .error .disorder

/-- The items in ascending order. -/
def sort (items : List Value) : Except EvalError Value := do
  return .arr (← ascending Value.less items)

/-- The items in the order of their keys, those with equal keys in the order given. -/
def sortBy (args : List Argument) : Except EvalError Value := do
  let sorted ← ascending lessByKey (← keyedItems "sort_by" args)
  return .arr (sorted.map Prod.snd)

/-- The entries of all objects, later values replacing earlier ones. -/
def merge (args : List Argument) : Value :=
  .obj (args.foldl (fun merged a => Dict.insertAll merged (a.toValue.toEntries?.getD [])) [])

/-- The first argument that is not null. -/
def notNull (args : List Argument) : Value :=
  ((args.map ArgumentIn.toValue).find? (!·.isNull)).getD .null

/-- A string or an array backwards. -/
def reverse : Value → Value
  | .str s => .str (String.ofList s.toList.reverse)
  | .arr items => .arr items.reverse
  | _ => .null

/-- An array as it is, any other value as its only item. -/
def toArray : Value → Value
  | .arr items => .arr items
  | v => .arr [v]

/-- A number as it is, a string as the number that it stands for. -/
def toNumber : Value → Value
  | .int n => .int n
  | .float x => .float x
  | .str s => (readNumber? s.toList).getD .null
  | _ => .null

/-- A string as it is, any other value as its JSON text. -/
def toText : Value → Value
  | .str s => .str s
  | v => .str (Json.compact v)

/-- A signature without repetition. -/
def taking (params : List (List DataType)) : Signature :=
  ⟨params.map Parameter.mk, none⟩

/-- A signature of one parameter that may repeat. -/
def takingMany (types : List DataType) : Signature :=
  ⟨[], some ⟨types⟩⟩

/-- A function of one value. -/
def unary (types : List DataType) (f : Value → Value) : Function :=
  ⟨taking [types], fun args => .ok (f (valueAt args 0))⟩

/-- A function of two values. -/
def binary (first second : List DataType) (f : Value → Value → Value) : Function :=
  ⟨taking [first, second], fun args => .ok (f (valueAt args 0) (valueAt args 1))⟩

/-- A function of the items of an array. -/
def ofItems (types : List DataType) (f : List Value → Value) : Function :=
  ⟨taking [types], fun args => .ok (f (itemsAt args 0))⟩

/-- All functions with their names. -/
def functions : List (String × Function) :=
  [("abs", unary [.number] abs),
    ("avg", ofItems [.numbers] avg),
    ("ceil", unary [.number] ceil),
    ("contains", binary [.array, .string] [.any] contains),
    ("ends_with", binary [.string] [.string] endsWith),
    ("floor", unary [.number] floor),
    ("join", ⟨taking [[.string], [.strings]], fun args =>
      .ok (join (valueAt args 0) (itemsAt args 1))⟩),
    ("keys", unary [.object] keys),
    ("length", unary [.string, .array, .object] length),
    ("map", ⟨taking [[.reference], [.array]], map⟩),
    ("max", ofItems [.numbers, .strings] max),
    ("max_by", ⟨taking [[.array], [.reference]], maxBy⟩),
    ("merge", ⟨takingMany [.object], fun args => .ok (merge args)⟩),
    ("min", ofItems [.numbers, .strings] min),
    ("min_by", ⟨taking [[.array], [.reference]], minBy⟩),
    ("not_null", ⟨takingMany [.any], fun args => .ok (notNull args)⟩),
    ("reverse", unary [.array, .string] reverse),
    ("sort", ⟨taking [[.numbers, .strings]], fun args => sort (itemsAt args 0)⟩),
    ("sort_by", ⟨taking [[.array], [.reference]], sortBy⟩),
    ("starts_with", binary [.string] [.string] startsWith),
    ("sum", ofItems [.numbers] Value.sum),
    ("to_array", unary [.any] toArray),
    ("to_number", unary [.any] toNumber),
    ("to_string", unary [.any] toText),
    ("type", unary [.any] fun v => .str v.typeName),
    ("values", unary [.object] values)]

end JsonQuery.Library

namespace JsonQuery

/-- The registry of the library. -/
def Registry.builtins : Registry :=
  ⟨Dict.ofEntries Library.functions, Dict.distinct_of_entries _⟩

end JsonQuery
