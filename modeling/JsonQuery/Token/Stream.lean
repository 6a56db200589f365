import JsonQuery.Token.Scan

/-!
Reading from a stream of tokens. A reader gives a result or an error, and in both cases the stream
as it has left it: a failed reader keeps what it has taken, so that another may go on behind it.
The end of the stream is never passed.
-/
namespace JsonQuery

/-- Mistakes that no single unexpected token shows. -/
inductive SyntaxFault where
  | quotedFunctionName (name : String)
  | tooManyColons
  | zeroStep
  deriving DecidableEq

/-- The mistake in words. -/
def SyntaxFault.message : SyntaxFault → String
  | .quotedFunctionName name => "quoted identifier \"" ++ name ++ "\" cannot name a function"
  | .tooManyColons => "too many colons in slice"
  | .zeroStep => "slice step cannot be 0"

/-- Why a text is no expression. -/
inductive ParseError where
  | lex (e : LexError)
  | unexpectedToken (found : Token) (expected : String) (position : Nat)
  | unexpectedEnd (expected : String) (position : Nat)
  | invalid (fault : SyntaxFault) (position : Nat)
  | tooDeep (limit : Nat) (position : Nat)

namespace ParseError

/-- The offset that the error points at. -/
def position : ParseError → Nat
  | .lex e => e.position
  | .unexpectedToken _ _ p => p
  | .unexpectedEnd _ p => p
  | .invalid _ p => p
  | .tooDeep _ p => p

/-- The error in words. -/
def message : ParseError → String
  | .lex e => e.message
  | .unexpectedToken found expected p =>
    "Unexpected " ++ found.describe ++ s!" at position {p}, expected " ++ expected
  | .unexpectedEnd expected p =>
    s!"Unexpected end of expression at position {p}, expected " ++ expected
  | .invalid fault p => s!"Invalid syntax at position {p}: " ++ fault.message
  | .tooDeep limit p => s!"Expression nested deeper than {limit} levels at position {p}"

end ParseError

namespace TokenStream

/-- The offset of the next token, or of the end. -/
def position (s : TokenStream) : Nat :=
  match s.upcoming with
  | t :: _ => t.position
  | [] => s.finish

/-- The stream behind the next token. -/
def tail (s : TokenStream) : TokenStream :=
  ⟨s.upcoming.tail, s.finish⟩

end TokenStream

/-- A reader of tokens. -/
def Parse (α : Type) : Type :=
  TokenStream → Except ParseError α × TokenStream

namespace Parse

instance : Monad Parse where
  pure a := fun s => (.ok a, s)
  bind p f := fun s =>
    match p s with
    | (.ok a, s) => f a s
    | (.error e, s) => (.error e, s)

/-- Fails and takes nothing. -/
def fail {α : Type} (e : ParseError) : Parse α :=
  fun s => (.error e, s)

/-- Fails at the next token, or at the end. -/
def failHere {α : Type} (expected : String) : Parse α :=
  fun s =>
    match s.upcoming with
    | t :: _ => (.error (.unexpectedToken t.token expected t.position), s)
    | [] => (.error (.unexpectedEnd expected s.finish), s)

/-- The next token, which is not taken. -/
def peek : Parse (Option Token) :=
  fun s => (.ok (s.upcoming.head?.map PlacedToken.token), s)

/-- The token behind the next, which is not taken. -/
def peekSecond : Parse (Option Token) :=
  fun s => (.ok (s.upcoming.tail.head?.map PlacedToken.token), s)

/-- The offset of the next token, or of the end. -/
def position : Parse Nat :=
  fun s => (.ok s.position, s)

/-- Takes the next token, if there is one. -/
def take : Parse (Option PlacedToken) :=
  fun s => (.ok s.upcoming.head?, s.tail)

/-- Takes the next token. -/
def advance : Parse Unit :=
  fun s => (.ok (), s.tail)

/-- Takes the given symbol; anything else is an error and is not taken. -/
def expect (symbol : Symbol) (expected : String) : Parse Unit := do
  match ← peek with
  | some (.symbol s) => if s = symbol then advance else failHere expected
  | _ => failHere expected

/-- Takes nothing at the end, and fails elsewhere. -/
def expectEnd (expected : String) : Parse Unit := do
  match ← peek with
  | some _ => failHere expected
  | none => return ()

/-- At least one item, with commas between the items, up to a closing symbol. Every item takes a
token, so the number of tokens left is enough of a budget. -/
def separated {α : Type} (item : Parse α) (close : Symbol) (expected : String) :
    (budget : Nat) → Parse (List α)
  | 0 => do
    let _ ← item
    failHere expected
  | budget + 1 => do
    let a ← item
    match ← peek with
    | some (.symbol .comma) => do
      advance
      let rest ← separated item close expected budget
      return a :: rest
    | some (.symbol s) =>
      if s = close then do
        advance
        return [a]
      else failHere expected
    | _ => failHere expected

/-- Items with commas between them, up to a closing symbol that is taken too. -/
def commaList {α : Type} (item : Parse α) (close : Symbol) (expected : String) : Parse (List α) :=
  fun s => separated item close expected s.upcoming.length s

end Parse

end JsonQuery
