import JsonQuery.Double.Text
import JsonQuery.Json.Tree

/-!
JSON text of documents and of trees: compact, or with every item on a line of its own. Doubles
always show that they are no integers, and those without a JSON form are written as null.
-/
namespace JsonQuery.Json

/-- Doubles are positional from `1e-5` up to `1e16`, a positive exponent has its sign, and of two
equally near digits the even one is written. -/
def floatLayout : FloatLayout := ⟨-5, 15, true, false⟩

/-- A hexadecimal digit in lower case. -/
def hexDigit (n : Nat) : Char :=
  Nat.digitChar n

/-- A character inside a JSON string. Only the quote, the backslash and the control characters are
escaped. -/
def escapeChar (c : Char) : List Char :=
  if c = '"' then ['\\', '"']
  else if c = '\\' then ['\\', '\\']
  else if 0x20 ≤ c.toNat then [c]
  else if c.toNat = 8 then ['\\', 'b']
  else if c.toNat = 9 then ['\\', 't']
  else if c.toNat = 10 then ['\\', 'n']
  else if c.toNat = 12 then ['\\', 'f']
  else if c.toNat = 13 then ['\\', 'r']
  else ['\\', 'u', '0', '0', hexDigit (c.toNat / 16), hexDigit (c.toNat % 16)]

/-- A string in quotes. -/
def writeString (cs : List Char) : List Char :=
  '"' :: (cs.flatMap escapeChar ++ ['"'])

/-- A double, or null when it is not finite. -/
def writeDouble : Double → List Char
  | .finite negative units _ => floatLayout.write negative units
  | _ => "null".toList

/-- The space between the tokens of a JSON text: what stands before an item or a closing bracket
at a depth, and what follows a colon. -/
structure Spacing where
  gap : Nat → List Char
  afterColon : List Char

/-- No space at all. -/
def Spacing.none : Spacing := ⟨fun _ => [], []⟩

/-- Items on lines of their own, two blanks deeper per level. -/
def Spacing.lines : Spacing := ⟨fun depth => '\n' :: List.replicate (2 * depth) ' ', [' ']⟩

mutual

/-- The text of a value that stands at a depth. -/
def writeValue (sp : Spacing) (depth : Nat) : Value → List Char
  | .null => "null".toList
  | .bool b => if b then "true".toList else "false".toList
  | .int n => intDigits n.toInt
  | .float x => writeDouble x
  | .str s => writeString s.toList
  | .arr [] => ['[', ']']
  | .arr (item :: rest) =>
    '[' :: (sp.gap (depth + 1) ++ (writeValue sp (depth + 1) item ++ writeItems sp depth rest))
  | .obj [] => ['\x7b', '\x7d']
  | .obj ((key, value) :: rest) =>
    '\x7b' :: (sp.gap (depth + 1) ++ (writeString key.toList ++ ':' :: (sp.afterColon ++
      (writeValue sp (depth + 1) value ++ writeEntries sp depth rest))))

/-- The items after the first, and the closing bracket. -/
def writeItems (sp : Spacing) (depth : Nat) : List Value → List Char
  | [] => sp.gap depth ++ [']']
  | item :: rest =>
    ',' :: (sp.gap (depth + 1) ++ (writeValue sp (depth + 1) item ++ writeItems sp depth rest))

/-- The entries after the first, and the closing brace. -/
def writeEntries (sp : Spacing) (depth : Nat) : List (String × Value) → List Char
  | [] => sp.gap depth ++ ['\x7d']
  | (key, value) :: rest =>
    ',' :: (sp.gap (depth + 1) ++ (writeString key.toList ++ ':' :: (sp.afterColon ++
      (writeValue sp (depth + 1) value ++ writeEntries sp depth rest))))

end

/-- A number of a tree. -/
def writeNumber : Number → List Char
  | .whole n _ => intDigits n
  | .real x _ => writeDouble x

mutual

/-- The text of a tree that stands at a depth. -/
def writeTree (sp : Spacing) (depth : Nat) : Tree → List Char
  | .null => "null".toList
  | .bool b => if b then "true".toList else "false".toList
  | .number n => writeNumber n
  | .str s => writeString s.toList
  | .arr [] => ['[', ']']
  | .arr (item :: rest) =>
    '[' :: (sp.gap (depth + 1) ++ (writeTree sp (depth + 1) item ++ writeTrees sp depth rest))
  | .obj [] => ['\x7b', '\x7d']
  | .obj ((key, t) :: rest) =>
    '\x7b' :: (sp.gap (depth + 1) ++ (writeString key.toList ++ ':' :: (sp.afterColon ++
      (writeTree sp (depth + 1) t ++ writeTreeEntries sp depth rest))))

/-- The items of a tree after the first, and the closing bracket. -/
def writeTrees (sp : Spacing) (depth : Nat) : List Tree → List Char
  | [] => sp.gap depth ++ [']']
  | item :: rest =>
    ',' :: (sp.gap (depth + 1) ++ (writeTree sp (depth + 1) item ++ writeTrees sp depth rest))

/-- The entries of a tree after the first, and the closing brace. -/
def writeTreeEntries (sp : Spacing) (depth : Nat) : List (String × Tree) → List Char
  | [] => sp.gap depth ++ ['\x7d']
  | (key, t) :: rest =>
    ',' :: (sp.gap (depth + 1) ++ (writeString key.toList ++ ':' :: (sp.afterColon ++
      (writeTree sp (depth + 1) t ++ writeTreeEntries sp depth rest))))

end

/-- Compact JSON text. -/
def compact (v : Value) : String :=
  String.ofList (writeValue .none 0 v)

/-- JSON text over several lines. -/
def pretty (v : Value) : String :=
  String.ofList (writeValue .lines 0 v)

/-- Compact JSON text of a tree. -/
def Tree.compact (t : Tree) : String :=
  String.ofList (writeTree .none 0 t)

/-- JSON text of a tree over several lines. -/
def Tree.pretty (t : Tree) : String :=
  String.ofList (writeTree .lines 0 t)

mutual

/-- The value that the JSON text of `v` stands for: doubles that are not finite become null. -/
def plain : Value → Value
  | .float x => if x.isFinite then .float x else .null
  | .arr items => .arr (plainItems items)
  | .obj entries => .obj (plainEntries entries)
  | v => v

/-- The items of an array, each as its JSON text stands for it. -/
def plainItems : List Value → List Value
  | [] => []
  | item :: rest => plain item :: plainItems rest

/-- The entries of an object, each value as its JSON text stands for it. -/
def plainEntries : List (String × Value) → List (String × Value)
  | [] => []
  | (key, value) :: rest => (key, plain value) :: plainEntries rest

end

end JsonQuery.Json
