import JsonQuery.Json.Read
import JsonQuery.Text.Blank
import JsonQuery.Token.Basic

/-!
Splitting an expression into tokens. A cursor stands between two characters; each step skips blank
characters and reads one token, or the end of the text, or fails. A failed step says how far it
has read, so that a reader may go on behind it, and an unexpected character is never passed over.
-/
namespace JsonQuery

/-- Tokens that are written between two equal delimiters. -/
inductive Delimited where
  | quotedIdentifier
  | rawString
  | literal
  deriving DecidableEq

/-- What error messages call it. -/
def Delimited.name : Delimited → String
  | .quotedIdentifier => "quoted identifier"
  | .rawString => "raw string"
  | .literal => "JSON literal"

/-- The character before and behind it. -/
def Delimited.delimiter : Delimited → Char
  | .quotedIdentifier => '"'
  | .rawString => '\''
  | .literal => '\x60'

/-- Why a text does not split into tokens. -/
inductive LexError where
  | unexpectedCharacter (character : Char) (position : Nat)
  | unterminated (what : Delimited) (position : Nat)
  | invalidQuotedIdentifier (position : Nat)
  | invalidLiteral (position : Nat)
  | invalidNumber (text : String) (position : Nat)
  deriving DecidableEq

namespace LexError

/-- The offset that the error points at. -/
def position : LexError → Nat
  | .unexpectedCharacter _ p => p
  | .unterminated _ p => p
  | .invalidQuotedIdentifier p => p
  | .invalidLiteral p => p
  | .invalidNumber _ p => p

/-- The error in words. -/
def message : LexError → String
  | .unexpectedCharacter c p => s!"Unexpected character '{c}' at position {p}"
  | .unterminated what p => s!"Unterminated {what.name} starting at position {p}"
  | .invalidQuotedIdentifier p => s!"Invalid quoted identifier at position {p}: {Json.refusal}"
  | .invalidLiteral p => s!"Invalid JSON literal at position {p}: {Json.refusal}"
  | .invalidNumber text p => s!"Invalid number '{text}' at position {p}"

end LexError

/-- The characters up to the closing delimiter. A backslash keeps the character behind it from
closing. -/
def delimitedText? (close : Char) : List Char → Option (List Char)
  | [] => none
  | c :: rest =>
    if c = close then some []
    else if c = '\\' then
      match rest with
      | [] => none
      | escaped :: rest => (delimitedText? close rest).map (c :: escaped :: ·)
    else (delimitedText? close rest).map (c :: ·)

/-- A raw string knows two escapes, of its delimiter and of the backslash. -/
def unescapeRaw : List Char → List Char
  | '\\' :: '\'' :: rest => '\'' :: unescapeRaw rest
  | '\\' :: '\\' :: rest => '\\' :: unescapeRaw rest
  | c :: rest => c :: unescapeRaw rest
  | [] => []

/-- A literal knows one escape, of its delimiter. -/
def unescapeLiteral : List Char → List Char
  | '\\' :: '\x60' :: rest => '\x60' :: unescapeLiteral rest
  | c :: rest => c :: unescapeLiteral rest
  | [] => []

/-- What the text between two delimiters denotes. -/
def delimitedToken (what : Delimited) (position : Nat) (text : List Char) :
    Except LexError Token :=
  match what with
  | .quotedIdentifier =>
    match Json.unquote? text with
    | some name => .ok (.quotedIdentifier name)
    | none => .error (.invalidQuotedIdentifier position)
  | .rawString => .ok (.rawString (String.ofList (unescapeRaw text)))
  | .literal =>
    match Json.readChars? (trimBlank (unescapeLiteral text)) with
    | some v => .ok (.literal v)
    | none => .error (.invalidLiteral position)

/-- The symbol at the front of a text. A lone equals sign is none. -/
def symbol? : List Char → Option Symbol
  | '.' :: _ => some .dot
  | '*' :: _ => some .star
  | ',' :: _ => some .comma
  | ':' :: _ => some .colon
  | '@' :: _ => some .current
  | '(' :: _ => some .leftParen
  | ')' :: _ => some .rightParen
  | '\x7b' :: _ => some .leftBrace
  | '\x7d' :: _ => some .rightBrace
  | ']' :: _ => some .rightBracket
  | '[' :: ']' :: _ => some .flatten
  | '[' :: '?' :: _ => some .filter
  | '[' :: _ => some .leftBracket
  | '|' :: '|' :: _ => some .or
  | '|' :: _ => some .pipe
  | '&' :: '&' :: _ => some .and
  | '&' :: _ => some .reference
  | '!' :: '=' :: _ => some (.comparator .notEqual)
  | '!' :: _ => some .not
  | '<' :: '=' :: _ => some (.comparator .lessEqual)
  | '<' :: _ => some (.comparator .less)
  | '>' :: '=' :: _ => some (.comparator .greaterEqual)
  | '>' :: _ => some (.comparator .greater)
  | '=' :: '=' :: _ => some (.comparator .equal)
  | _ => none

/-- The first character of an unquoted identifier. -/
def isNameStart (c : Char) : Bool :=
  c.isAlpha || c == '_'

/-- The other characters of an unquoted identifier. -/
def isNamePart (c : Char) : Bool :=
  c.isAlphanum || c == '_'

/-- Whether the next character that is not blank opens a parenthesis. -/
def opensCall (cs : List Char) : Bool :=
  (cs.dropWhile isBlank).head? == some '('

/-- One attempt at a token: the token or the failure, and how many characters it has taken. -/
structure Reading where
  outcome : Except LexError Token
  length : Nat

/-- Reads what stands between delimiters, the opening one being taken already. -/
def readDelimited (what : Delimited) (position : Nat) (inside : List Char) : Reading :=
  match delimitedText? what.delimiter inside with
  | some text => ⟨delimitedToken what position text, text.length + 2⟩
  | none => ⟨.error (.unterminated what position), inside.length + 1⟩

/-- Reads an identifier, which is the name of a function when a call opens behind it. -/
def readName (cs : List Char) : Reading :=
  let name := cs.takeWhile isNamePart
  let text := String.ofList name
  ⟨.ok (if opensCall (cs.dropWhile isNamePart) then .functionName text else .identifier text),
    name.length⟩

/-- An integer with an optional sign; it has to fit into 64 bits. -/
def readNumber (position : Nat) (negative : Bool) (cs : List Char) : Reading :=
  let digits := cs.takeWhile Char.isDigit
  let text := if negative then '-' :: digits else digits
  ⟨match toInt64? (signed negative (digitsValue digits)) with
    | some n => .ok (.number n)
    | none => .error (.invalidNumber (String.ofList text) position),
    text.length⟩

/-- Reads a token off a text that does not begin with a blank. -/
def readToken (position : Nat) (c : Char) (rest : List Char) : Reading :=
  match symbol? (c :: rest) with
  | some s => ⟨.ok (.symbol s), s.text.length⟩
  | none =>
    if c = '"' then readDelimited .quotedIdentifier position rest
    else if c = '\'' then readDelimited .rawString position rest
    else if c = '\x60' then readDelimited .literal position rest
    else if c = '-' ∧ rest.head?.any Char.isDigit then readNumber position true rest
    else if c.isDigit then readNumber position false (c :: rest)
    else if isNameStart c then readName (c :: rest)
    else ⟨.error (.unexpectedCharacter c position), 0⟩

/-- A place in a text: what is still to be read, and how many characters have been. -/
structure Cursor where
  rest : List Char
  position : Nat

/-- What a step of the cursor finds: a token, or the end of the text and its offset. -/
inductive Lexeme where
  | token (t : PlacedToken)
  | finish (position : Nat)

namespace Cursor

/-- The place before the first character. -/
def start (text : String) : Cursor :=
  ⟨text.toList, 0⟩

/-- The place so many characters further on. -/
def advance (c : Cursor) (length : Nat) : Cursor :=
  ⟨c.rest.drop length, c.position + length⟩

/-- The place behind the blank characters. -/
def skipBlank (c : Cursor) : Cursor :=
  c.advance (c.rest.takeWhile isBlank).length

/-- The next token or failure, and the place behind what was read. -/
def next (c : Cursor) : Except LexError Lexeme × Cursor :=
  let c := c.skipBlank
  match c.rest with
  | [] => (.ok (.finish c.position), c)
  | first :: rest =>
    let reading := readToken c.position first rest
    (reading.outcome.map fun token => .token ⟨token, c.position⟩, c.advance reading.length)

end Cursor

namespace TokenStream

/-- The tokens from a place on. Every token takes a character, so the number of characters left is
enough of a budget. -/
def scanFrom : (budget : Nat) → Cursor → Except LexError TokenStream
  | 0, c => .ok ⟨[], c.position⟩
  | budget + 1, c =>
    match c.next with
    | (.error e, _) => .error e
    | (.ok (.finish position), _) => .ok ⟨[], position⟩
    | (.ok (.token t), c) => do
      let stream ← scanFrom budget c
      return ⟨t :: stream.upcoming, stream.finish⟩

/-- All tokens of a text. -/
def ofText (text : String) : Except LexError TokenStream :=
  scanFrom text.length (.start text)

end TokenStream

end JsonQuery
