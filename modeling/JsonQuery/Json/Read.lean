import JsonQuery.Json.Tree
import JsonQuery.Text.Numeral

/-!
Reading JSON text: one value of the standard grammar with nothing but JSON white space around it.
The text is read into a tree, which then becomes a document. Arrays and objects nest at most 127
deep, an integer that fits into 64 bits stays an integer, and a number beyond the range of doubles
is refused.
-/
namespace JsonQuery.Json

/-- What error messages say about text that is refused. -/
def refusal : String := "malformed JSON"

/-- The deepest nesting of arrays and objects that is read. -/
def maxNesting : Nat := 127

/-- JSON white space. -/
def isSpace (c : Char) : Bool :=
  c = ' ' || c = '\t' || c = '\n' || c = '\r'

/-- The text behind the white space at its front. -/
def skipSpace (cs : List Char) : List Char :=
  cs.dropWhile isSpace

/-- The value of a hexadecimal digit. -/
def hexValue? (c : Char) : Option Nat :=
  if '0' ≤ c ∧ c ≤ '9' then some (c.toNat - '0'.toNat)
  else if 'a' ≤ c ∧ c ≤ 'f' then some (c.toNat - 'a'.toNat + 10)
  else if 'A' ≤ c ∧ c ≤ 'F' then some (c.toNat - 'A'.toNat + 10)
  else none

/-- The code unit that four hexadecimal digits denote. -/
def codeUnit? (a b c d : Char) : Option Nat := do
  return (((← hexValue? a) * 16 + (← hexValue? b)) * 16 + (← hexValue? c)) * 16 + (← hexValue? d)

/-- The character of an escape of one letter. -/
def simpleEscape? (c : Char) : Option Char :=
  if c = '"' ∨ c = '\\' ∨ c = '/' then some c
  else if c = 'b' then some (Char.ofNat 8)
  else if c = 'f' then some (Char.ofNat 12)
  else if c = 'n' then some '\n'
  else if c = 'r' then some '\r'
  else if c = 't' then some '\t'
  else none

/-- Whether a code unit is the first half of a pair. -/
def isHighSurrogate (unit : Nat) : Bool :=
  0xD800 ≤ unit && unit < 0xDC00

/-- Whether a code unit is the second half of a pair. -/
def isLowSurrogate (unit : Nat) : Bool :=
  0xDC00 ≤ unit && unit < 0xE000

/-- The characters of a string up to its closing quote, and the text behind the quote. Halves of
surrogate pairs count only in pairs, and control characters have to be escaped. -/
def stringTail : List Char → Option (List Char × List Char)
  | [] => none
  | '"' :: rest => some ([], rest)
  | '\\' :: 'u' :: a :: b :: c :: d :: rest =>
    match codeUnit? a b c d with
    | none => none
    | some unit =>
      if isHighSurrogate unit then
        match rest with
        | '\\' :: 'u' :: e :: f :: g :: h :: rest => do
          let low ← codeUnit? e f g h
          if isLowSurrogate low then
            let (cs, rest) ← stringTail rest
            return (Char.ofNat (0x10000 + (unit - 0xD800) * 0x400 + (low - 0xDC00)) :: cs, rest)
          else none
        | _ => none
      else if isLowSurrogate unit then none
      else do
        let (cs, rest) ← stringTail rest
        return (Char.ofNat unit :: cs, rest)
  | '\\' :: e :: rest => do
    let c ← simpleEscape? e
    let (cs, rest) ← stringTail rest
    return (c :: cs, rest)
  | c :: rest =>
    if c = '\\' ∨ c.toNat < 0x20 then none
    else do
      let (cs, rest) ← stringTail rest
      return (c :: cs, rest)

/-- A numeral without superfluous zeros in front and with digits on both sides of a point. -/
def isNumber (n : Numeral) : Bool :=
  (n.whole == ['0'] || (!n.whole.isEmpty && n.whole.head? != some '0')) && n.fraction != some []

/-- The value of a numeral. Minus zero and integers beyond 64 bits are doubles. -/
def numberValue (negative : Bool) (n : Numeral) : Option Number :=
  let asDouble := Number.ofDouble? (n.toDouble negative)
  if n.isInteger && !(negative && digitsValue n.whole == 0) then
    match Number.ofInt? (n.toInt negative) with
    | some whole => some whole
    | none => asDouble
  else asDouble

/-- A number at the front of a text. -/
def number (cs : List Char) : Option (Number × List Char) := do
  let (negative, digits) :=
    match cs with
    | '-' :: rest => (true, rest)
    | _ => (false, cs)
  let (n, rest) ← Numeral.scan digits
  if isNumber n then return (← numberValue negative n, rest) else none

/-- A value that is neither an array nor an object. -/
def scalar : List Char → Option (Tree × List Char)
  | 'n' :: 'u' :: 'l' :: 'l' :: rest => some (.null, rest)
  | 't' :: 'r' :: 'u' :: 'e' :: rest => some (.bool true, rest)
  | 'f' :: 'a' :: 'l' :: 's' :: 'e' :: rest => some (.bool false, rest)
  | '"' :: rest => do
    let (cs, rest) ← stringTail rest
    return (.str (String.ofList cs), rest)
  | cs => do
    let (n, rest) ← number cs
    return (.number n, rest)

/-- Members with commas between them, up to the closing character. Every member takes a character,
so the length of the text is enough of a budget. -/
def members {α : Type} (member : List Char → Option (α × List Char)) (close : Char) :
    (budget : Nat) → List Char → Option (List α × List Char)
  | 0, _ => none
  | budget + 1, cs => do
    let (a, rest) ← member cs
    match skipSpace rest with
    | [] => none
    | c :: rest =>
      if c = close then return ([a], rest)
      else if c = ',' then do
        let (more, rest) ← members member close budget rest
        return (a :: more, rest)
      else none

/-- A key with its colon and its value. -/
def entry (item : List Char → Option (Tree × List Char)) (cs : List Char) :
    Option ((String × Tree) × List Char) :=
  match skipSpace cs with
  | '"' :: rest => do
    let (key, rest) ← stringTail rest
    match skipSpace rest with
    | ':' :: rest => do
      let (t, rest) ← item rest
      return ((String.ofList key, t), rest)
    | _ => none
  | _ => none

/-- The rest of an array behind its opening bracket. -/
def arrayTail (item : List Char → Option (Tree × List Char)) (cs : List Char) :
    Option (Tree × List Char) :=
  match skipSpace cs with
  | ']' :: rest => some (.arr [], rest)
  | _ => do
    let (ts, rest) ← members item ']' cs.length cs
    return (.arr ts, rest)

/-- The rest of an object behind its opening brace. -/
def objectTail (item : List Char → Option (Tree × List Char)) (cs : List Char) :
    Option (Tree × List Char) :=
  match skipSpace cs with
  | '\x7d' :: rest => some (.obj [], rest)
  | _ => do
    let (es, rest) ← members (entry item) '\x7d' cs.length cs
    return (.obj (Dict.ofEntries es), rest)

/-- A value, with at most the given number of arrays and objects inside one another. -/
def value : (nesting : Nat) → List Char → Option (Tree × List Char)
  | 0, cs => scalar (skipSpace cs)
  | nesting + 1, cs =>
    match skipSpace cs with
    | '[' :: rest => arrayTail (value nesting) rest
    | '\x7b' :: rest => objectTail (value nesting) rest
    | rest => scalar rest

/-- The tree that a JSON text denotes. -/
def readTree? (cs : List Char) : Option Tree := do
  let (t, rest) ← value maxNesting cs
  if skipSpace rest = [] then return t else none

/-- The document that a JSON text denotes. -/
def readChars? (cs : List Char) : Option Value :=
  (readTree? cs).map Tree.toValue

/-- The document that a JSON text denotes, none when it is refused. -/
def read? (text : String) : Option Value :=
  readChars? text.toList

/-- The string whose JSON text is the given characters in quotes. -/
def unquote? (inside : List Char) : Option String := do
  let (cs, rest) ← stringTail (inside ++ ['"'])
  if rest = [] then return String.ofList cs else none

end JsonQuery.Json
