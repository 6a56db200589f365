import JsonQuery.Expr.Basic
import JsonQuery.Json.Write
import JsonQuery.Text.Invisible
import JsonQuery.Text.Unassigned

/-!
Outlines of expressions: every node on a line of its own, its parts indented below it. They show
the expression behind a text with nothing left out.
-/
namespace JsonQuery

/-- An indented listing: one line, or a group of labelled members between two lines. -/
inductive Outline where
  | line (text : String)
  | group (opening : String) (members : List (String × Outline)) (closing : String)

namespace Outline

mutual

/-- The text of an outline that stands at an indentation. A group without members is one line. -/
def write (indent : Nat) : Outline → List Char
  | .line text => text.toList
  | .group opening [] closing => opening.toList ++ closing.toList
  | .group opening (member :: rest) closing =>
    opening.toList ++ '\n' :: (writeMembers (indent + 4) (member :: rest) ++
      (List.replicate indent ' ' ++ closing.toList))

/-- Each member on lines of its own, with a comma behind it. -/
def writeMembers (indent : Nat) : List (String × Outline) → List Char
  | [] => []
  | (label, member) :: rest =>
    List.replicate indent ' ' ++ (label.toList ++ (write indent member ++
      ',' :: '\n' :: writeMembers indent rest))

end

/-- A node with named parts. -/
def record (name : String) (fields : List (String × Outline)) : Outline :=
  .group (name ++ " \x7b") (fields.map fun field => (field.1 ++ ": ", field.2)) "\x7d"

/-- A node with parts that have no names. -/
def tuple (name : String) (parts : List Outline) : Outline :=
  .group (name ++ "(") (parts.map fun part => ("", part)) ")"

/-- A list of parts between brackets. -/
def list (parts : List Outline) : Outline :=
  .group "[" (parts.map fun part => ("", part)) "]"

/-- A part that may be missing. -/
def optional : Option Outline → Outline
  | none => .line "None"
  | some part => tuple "Some" [part]

/-- Doubles are positional from `1e-4` up to `1e16`, and of two equally near digits the upper one
is written. -/
def floatLayout : FloatLayout := ⟨-4, 15, false, true⟩

/-- An integer, on one line. -/
def ofInt64 (n : Int64) : Outline :=
  .line (String.ofList (intDigits n.toInt))

/-- A double, on one line. -/
def ofDouble : Double → Outline
  | .finite negative units _ => .line (String.ofList (floatLayout.write negative units))
  | .infinite negative => .line (if negative then "-inf" else "inf")
  | .nan => .line "NaN"

/-- The hexadecimal digits of a code point in braces. -/
def escapeCode (c : Char) : List Char :=
  '\\' :: 'u' :: '\x7b' :: (Nat.toDigits 16 c.toNat ++ ['\x7d'])

/-- A character inside a quoted string. -/
def escapeChar (c : Char) : List Char :=
  if c = '"' then ['\\', '"']
  else if c = '\\' then ['\\', '\\']
  else if c = '\n' then ['\\', 'n']
  else if c = '\t' then ['\\', 't']
  else if c = '\r' then ['\\', 'r']
  else if c.toNat = 0 then ['\\', '0']
  else if isInvisible c || isUnassigned c then escapeCode c
  else [c]

/-- A string in quotes. -/
def quote (s : String) : String :=
  String.ofList ('"' :: (s.toList.flatMap escapeChar ++ ['"']))

/-- A string, on one line. -/
def ofString (s : String) : Outline :=
  .line (quote s)

mutual

/-- A value with its kind, and with the kinds of all values inside it. -/
def ofValue : Value → Outline
  | .null => .line "Null"
  | .bool b => tuple "Boolean" [.line (if b then "true" else "false")]
  | .int n => tuple "Integer" [ofInt64 n]
  | .float x => tuple "Float" [ofDouble x]
  | .str s => tuple "String" [ofString s]
  | .arr items => tuple "Array" [list (ofValues items)]
  | .obj entries => tuple "Object" [.group "\x7b" (ofEntries entries) "\x7d"]

/-- The items of an array. -/
def ofValues : List Value → List Outline
  | [] => []
  | v :: rest => ofValue v :: ofValues rest

/-- The entries of an object, labelled with their quoted keys. -/
def ofEntries : List (String × Value) → List (String × Outline)
  | [] => []
  | (key, v) :: rest => (quote key ++ ": ", ofValue v) :: ofEntries rest

end

/-- The name of an operator, on one line. -/
def ofComparator : Comparator → Outline
  | .equal => .line "Equal"
  | .notEqual => .line "NotEqual"
  | .less => .line "LessThan"
  | .lessEqual => .line "LessEqual"
  | .greater => .line "GreaterThan"
  | .greaterEqual => .line "GreaterEqual"

mutual

/-- An expression with all its parts. -/
def ofExpr : Expr → Outline
  | .identity => .line "Identity"
  | .current => .line "CurrentNode"
  | .field name => tuple "Field" [ofString name]
  | .index n => tuple "Index" [ofInt64 n]
  | .slice start stop step =>
    record "Slice" [("start", optional (start.map ofInt64)), ("stop", optional (stop.map ofInt64)),
      ("step", optional (step.map ofInt64))]
  | .literal value => tuple "Literal" [ofValue value]
  | .dot left right => record "SubExpression" [("left", ofExpr left), ("right", ofExpr right)]
  | .bracket left right =>
    record "IndexExpression" [("left", ofExpr left), ("right", ofExpr right)]
  | .flatten child projection =>
    record "Flatten" [("child", ofExpr child), ("projection", ofExpr projection)]
  | .eachItem child projection =>
    record "WildcardIndex" [("child", ofExpr child), ("projection", ofExpr projection)]
  | .eachValue child projection =>
    record "WildcardValues" [("child", ofExpr child), ("projection", ofExpr projection)]
  | .filter child predicate projection =>
    record "FilterProjection" [("child", ofExpr child), ("predicate", ofExpr predicate),
      ("projection", ofExpr projection)]
  | .pipe left right => record "Pipe" [("left", ofExpr left), ("right", ofExpr right)]
  | .or left right => record "Or" [("left", ofExpr left), ("right", ofExpr right)]
  | .and left right => record "And" [("left", ofExpr left), ("right", ofExpr right)]
  | .not child => tuple "Not" [ofExpr child]
  | .compare op left right =>
    record "Comparator" [("op", ofComparator op), ("left", ofExpr left), ("right", ofExpr right)]
  | .list elements => tuple "MultiSelectList" [list (ofExprs elements)]
  | .hash entries => tuple "MultiSelectHash" [list (ofPairs entries)]
  | .call name args => record "Function" [("name", ofString name), ("args", list (ofExprs args))]
  | .reference child => tuple "ExpressionRef" [ofExpr child]

/-- Expressions in their order. -/
def ofExprs : List Expr → List Outline
  | [] => []
  | e :: rest => ofExpr e :: ofExprs rest

/-- The entries of a hash as pairs of a key and an expression. -/
def ofPairs : List (String × Expr) → List Outline
  | [] => []
  | (key, e) :: rest => tuple "" [ofString key, ofExpr e] :: ofPairs rest

end

end Outline

/-- The outline of an expression as text. -/
def Expr.outline (e : Expr) : String :=
  String.ofList ((Outline.ofExpr e).write 0)

end JsonQuery
