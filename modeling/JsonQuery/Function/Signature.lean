import JsonQuery.Expr.Basic

/-!
What functions accept: argument types, parameters that admit several types, and signatures whose
last parameter may repeat. An argument is a value or an expression that the function may evaluate
on values of its own choice.
-/
namespace JsonQuery

/-- The types that a parameter can name. -/
inductive DataType where
  | any
  | number
  | string
  | boolean
  | array
  | object
  | null
  | reference
  | numbers
  | strings
  deriving DecidableEq

namespace DataType

/-- The name of the type in signatures and messages. -/
def text : DataType → String
  | .any => "any"
  | .number => "number"
  | .string => "string"
  | .boolean => "boolean"
  | .array => "array"
  | .object => "object"
  | .null => "null"
  | .reference => "expref"
  | .numbers => "array[number]"
  | .strings => "array[string]"

/-- Whether a value is of the type. No value is an expression. -/
def acceptsValue : DataType → Value → Bool
  | .any, _ => true
  | .number, v => v.isNumber
  | .string, .str _ => true
  | .boolean, .bool _ => true
  | .array, .arr _ => true
  | .object, .obj _ => true
  | .null, .null => true
  | .numbers, .arr items => items.all Value.isNumber
  | .strings, .arr items => items.all Value.isString
  | _, _ => false

end DataType

/-- Why a call does not fit a signature. Arguments are counted from zero. -/
inductive CallError where
  | arity (function : String) (expected actual : Nat) (repeats : Bool)
  | invalidType (function : String) (index : Nat) (expected : List DataType) (actual : String)
  deriving DecidableEq

/-- The types with bars between them. -/
def typeAlternatives (types : List DataType) : String :=
  "|".intercalate (types.map DataType.text)

/-- The error in words. -/
def CallError.message : CallError → String
  | .arity function expected actual repeats =>
    function ++ "() takes " ++ (if repeats then "at least " else "") ++
      s!"{expected} argument(s), got {actual}"
  | .invalidType function index expected actual =>
    function ++ s!"() argument {index} must be " ++ typeAlternatives expected ++ ", got " ++ actual

/-- Why an evaluation has no value. Missing fields and values of the wrong type are null instead. The
last of these is no error that is returned: where a sort finds that the order of its items contradicts
itself, the whole evaluation is abandoned, and nobody who waits for a part of it gets to go on. -/
inductive EvalError where
  | call (e : CallError)
  | unknownFunction (name : String)
  | depthExceeded (limit : Nat)
  | disorder
  deriving DecidableEq

/-- The error in words. -/
def EvalError.message : EvalError → String
  | .call e => e.message
  | .unknownFunction name => "Unknown function: " ++ name ++ "()"
  | .depthExceeded limit => s!"Evaluation nested deeper than {limit} levels"
  | .disorder => "user-provided comparison function does not correctly implement a total order"

/-- What a function is called with. An expression comes with its evaluation, which is a computation of
the kind `m`. -/
inductive ArgumentIn (m : Type → Type) where
  | value (v : Value)
  | expression (e : Expr) (eval : Value → m Value)

/-- What a function is called with when evaluations have an outcome and nothing else. -/
abbrev Argument := ArgumentIn (Except EvalError)

namespace ArgumentIn

variable {m : Type → Type}

/-- The value of an argument; an expression counts as null. -/
def toValue : ArgumentIn m → Value
  | .value v => v
  | .expression .. => .null

/-- The name of the type of a value, and one of its own for an expression. -/
def typeName : ArgumentIn m → String
  | .value v => v.typeName
  | .expression .. => "expref"

/-- The evaluation of an argument that is an expression. -/
def eval? : ArgumentIn m → Option (Value → m Value)
  | .value _ => none
  | .expression _ eval => some eval

end ArgumentIn

/-- Whether an argument is of the type. -/
def DataType.accepts {m : Type → Type} (t : DataType) : ArgumentIn m → Bool
  | .value v => t.acceptsValue v
  | .expression .. => t = .reference

/-- A parameter is the list of the types that it admits. -/
structure Parameter where
  types : List DataType
  deriving DecidableEq

/-- Whether an argument is of one of the types. -/
def Parameter.accepts {m : Type → Type} (p : Parameter) (a : ArgumentIn m) : Bool :=
  p.types.any (·.accepts a)

/-- The parameters of a function, and one more that stands at least once and may repeat. -/
structure Signature where
  fixed : List Parameter
  rest : Option Parameter
  deriving DecidableEq

namespace Signature

/-- The parameters that every call has to serve. -/
def params (s : Signature) : List Parameter :=
  s.fixed ++ s.rest.toList

/-- Whether the last parameter may repeat. -/
def repeats (s : Signature) : Bool :=
  s.rest.isSome

/-- The parameter for the argument at an index. -/
def parameter? (s : Signature) (index : Nat) : Option Parameter :=
  match s.params[index]? with
  | some p => some p
  | none => s.rest

/-- Checks the number of arguments. -/
def checkArity (s : Signature) (function : String) (actual : Nat) : Except CallError Unit :=
  let expected := s.params.length
  if (if s.repeats then expected ≤ actual else actual = expected) then .ok ()
  else .error (.arity function expected actual s.repeats)

/-- Checks arguments from the given index on against their parameters. -/
def checkTypesFrom {m : Type → Type} (s : Signature) (function : String) :
    (index : Nat) → List (ArgumentIn m) → Except CallError Unit
  | _, [] => .ok ()
  | index, a :: rest =>
    match s.parameter? index with
    | some p =>
      if p.accepts a then checkTypesFrom s function (index + 1) rest
      else .error (.invalidType function index p.types a.typeName)
    | none => checkTypesFrom s function (index + 1) rest

/-- Checks the arguments against their parameters, the first mismatch being the error. -/
def checkTypes {m : Type → Type} (s : Signature) (function : String)
    (args : List (ArgumentIn m)) : Except CallError Unit :=
  s.checkTypesFrom function 0 args

/-- The signature as it is listed. -/
def text (s : Signature) : String :=
  "(" ++ ", ".intercalate (s.params.map fun p => typeAlternatives p.types) ++
    (if s.repeats then "..." else "") ++ ")"

end Signature

end JsonQuery
