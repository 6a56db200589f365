import JsonQuery.Expr.Parse

/-!
A parser that can be called again and again. It holds all tokens of a text with its own place among
them, and counts how many expressions it is inside of. Where it takes a token it leaves the mark of
the end behind, and a call that fails leaves the tokens and the place as they are at that moment, so
that the next call goes on from there.
-/
namespace JsonQuery

/-- A place among the tokens of a parser: a token, or the mark of the end, which also stands where a
token has been taken. -/
structure Slot where
  token : Option Token
  position : Nat

namespace Slot

/-- The place of a token. -/
def ofToken (t : PlacedToken) : Slot :=
  ⟨some t.token, t.position⟩

/-- How tightly the token holds an expression to its left, and zero at the end. -/
def bindingPower (slot : Slot) : Nat :=
  (slot.token.map Token.bindingPower).getD 0

/-- The error that there is something else than expected here. -/
def unexpected (slot : Slot) (expected : String) : ParseError :=
  match slot.token with
  | some found => .unexpectedToken found expected slot.position
  | none => .unexpectedEnd expected slot.position

end Slot

/-- The places of all tokens of a stream, with the mark of the end behind them. -/
def TokenStream.slots (s : TokenStream) : List Slot :=
  s.upcoming.map Slot.ofToken ++ [⟨none, s.finish⟩]

/-- The state of a parser between and within calls. -/
structure Parser where
  slots : List Slot
  index : Nat
  depth : Nat

namespace Parser

/-- A parser that has not been called yet. -/
def fresh (slots : List Slot) : Parser :=
  ⟨slots, 0, 0⟩

/-- The parser for the tokens of a stream. -/
def start (s : TokenStream) : Parser :=
  fresh s.slots

/-- The parser for a text, which has to be lexed as a whole before. -/
def ofText (text : String) : Except LexError Parser := do
  return start (← TokenStream.ofText text)

/-- The parser at its next place, if there is one. -/
def next (p : Parser) : Parser :=
  if p.index + 1 < p.slots.length then { p with index := p.index + 1 } else p

/-- The parser without the token at its place. -/
def emptied (p : Parser) : Parser :=
  { p with slots := p.slots.modify p.index fun slot => { slot with token := none } }

end Parser

/-- What a parser does: it ends with a result or an error, and with the state that it is then in.
There is nothing when it looks for a place that it does not have, or when a loop or the expressions
inside each other come to more rounds than there are places. -/
abbrev Machine := ExceptT ParseError (StateT Parser Option)

/-- The expression that extends as far as the given binding power allows. -/
abbrev ExprMachine := Nat → Machine Expr

namespace Machine

/-- The place so far behind the current one. Behind the last place there is the last one again. -/
def slot (offset : Nat) : Machine Slot := fun p => do
  let slot ← p.slots[min (p.index + offset) (p.slots.length - 1)]?
  return (.ok slot, p)

/-- The current token. -/
def peek : Machine (Option Token) := do
  return (← slot 0).token

/-- The token behind the current one. -/
def peekSecond : Machine (Option Token) := do
  return (← slot 1).token

/-- The offset of the current token. -/
def position : Machine Nat := do
  return (← slot 0).position

/-- Fails at the current token. -/
def failHere {α : Type} (expected : String) : Machine α := do
  throw ((← slot 0).unexpected expected)

/-- Goes on to the next place, if there is one. -/
def advance : Machine Unit :=
  modify Parser.next

/-- Takes the current token out of its place and goes on. -/
def take : Machine Slot := do
  let position ← position
  let p ← get
  let token := p.slots[p.index]?.bind Slot.token
  set p.emptied
  advance
  return ⟨token, position⟩

/-- Goes past the given symbol; anything else is an error. -/
def expect (symbol : Symbol) (expected : String) : Machine Unit := do
  match ← peek with
  | some (.symbol s) => if s = symbol then advance else failHere expected
  | _ => failHere expected

/-- Anything but the end is an error. -/
def expectEnd (expected : String) : Machine Unit := do
  match ← peek with
  | some _ => failHere expected
  | none => advance

/-- Lets an expression pass that is not too deep. -/
def bounded (position : Nat) (e : Expr) : Machine Expr :=
  if e.deeperThan maxExprDepth then throw (.tooDeep maxExprDepth position) else return e

/-- The key of an entry, which is taken also when it is none. -/
def hashKey : Machine String := do
  let taken ← take
  match taken.token with
  | some (.identifier name) => return name
  | some (.quotedIdentifier name) => return name
  | _ => throw (taken.unexpected "identifier as hash key")

/-- A loop that has used up its rounds. -/
def endless {α : Type} : Machine α :=
  fun _ => none

/-- Allows a loop one round for each place, which is more than there are tokens. -/
def rounds {α : Type} (m : Nat → Machine α) : Machine α :=
  fun p => m p.slots.length p

/-- Goes past a number, if there is one. -/
def optionalNumber {α : Type} (rest : Option Int64 → Machine α) : Machine α := do
  match ← peek with
  | some (.number n) => do
    advance
    rest (some n)
  | _ => rest none

/-- The parts of a slice of which the first one is given. -/
def sliceRest (colons : Nat) (part : Option Int64) : Machine (List (Option Int64)) := do
  match ← peek with
  | some (.symbol .rightBracket) => return [part]
  | some (.symbol .colon) =>
    match colons with
    | 0 => do throw (.invalid .tooManyColons (← position))
    | colons + 1 => do
      advance
      return part :: (← optionalNumber (sliceRest colons))
  | _ => failHere "number, ':' or ']'"

/-- The parts of a slice, with at most the given number of colons between them. -/
def sliceParts (colons : Nat) : Machine (List (Option Int64)) :=
  optionalNumber (sliceRest colons)

/-- A slice with its closing bracket. -/
def slice : Machine Expr := do
  let parts ← sliceParts 2
  let closing ← position
  expect .rightBracket "']'"
  let part (i : Nat) : Option Int64 := (parts[i]?).join
  if part 2 = some 0 then throw (.invalid .zeroStep closing)
  else return .slice (part 0) (part 1) (part 2)

/-- At least one item, with commas between them, up to a closing symbol. -/
def separated {α : Type} (item : Machine α) (close : Symbol) (expected : String) :
    (budget : Nat) → Machine (List α)
  | 0 => endless
  | budget + 1 => do
    let first ← item
    match ← peek with
    | some (.symbol .comma) => do
      advance
      let rest ← separated item close expected budget
      return first :: rest
    | some (.symbol s) =>
      if s = close then do
        advance
        return [first]
      else failHere expected
    | _ => failHere expected

/-- Items with commas between them, up to a closing symbol that is gone past too. -/
def commaList {α : Type} (item : Machine α) (close : Symbol) (expected : String) :
    Machine (List α) :=
  rounds (separated item close expected)

section

variable (sub : ExprMachine)

/-- The elements of a multi-select list, behind its bracket. -/
def multiSelectList : Machine Expr := do
  return .list (← commaList (sub 0) .rightBracket "',' or ']'")

/-- A key with its colon and its expression. -/
def entry : Machine (String × Expr) := do
  let key ← hashKey
  expect .colon "':'"
  return (key, ← sub 0)

/-- The entries of a multi-select hash, behind its brace. -/
def multiSelectHash : Machine Expr := do
  return .hash (← commaList (entry sub) .rightBrace "',' or '\x7d'")

/-- The arguments of a function, with their parentheses. -/
def arguments : Machine (List Expr) := do
  expect .leftParen "'('"
  match ← peek with
  | some (.symbol .rightParen) => do
    advance
    return []
  | _ => commaList (sub 0) .rightParen "',' or ')'"

/-- What may stand behind a dot. -/
def dotTail (binding : Nat) : Machine Expr := do
  match ← peek with
  | some (.identifier _) => sub binding
  | some (.quotedIdentifier _) => sub binding
  | some (.functionName _) => sub binding
  | some (.symbol .star) => sub binding
  | some (.symbol .leftBracket) => do
    advance
    multiSelectList sub
  | some (.symbol .leftBrace) => do
    advance
    multiSelectHash sub
  | _ => failHere "identifier, '*', '[' or '\x7b' after '.'"

/-- What is applied to each element of a projection. -/
def projectionTail (binding : Nat) : Machine Expr := do
  match ← peek with
  | some (.symbol .leftBracket) => sub binding
  | some (.symbol .filter) => sub binding
  | some (.symbol .dot) => do
    advance
    dotTail sub binding
  | some token =>
    if token.bindingPower < projectionStop then return .identity
    else failHere "'.', '[' or '[?' after a projection"
  | none => return .identity

/-- A filter on `left`, behind its opening symbol. -/
def filter (left : Expr) : Machine Expr := do
  let predicate ← sub 0
  expect .rightBracket "']'"
  return .filter left predicate (← projectionTail sub 21)

/-- A slice of `left`, whose items are then projected. -/
def sliced (left : Expr) : Machine Expr := do
  let right ← slice
  return .eachItem (Rules.subscript left right) (← projectionTail sub 20)

/-- An index of `left`, or a slice of it. -/
def indexOrSlice (left : Expr) : Machine Expr := do
  match ← peek, ← peekSecond with
  | some (.symbol .colon), _ => sliced sub left
  | _, some (.symbol .colon) => sliced sub left
  | some (.number n), _ => do
    advance
    expect .rightBracket "']'"
    return Rules.subscript left (.index n)
  | _, _ => failHere "number"

/-- Behind an opening bracket at the start of an expression. -/
def leadingBracket : Machine Expr := do
  match ← peek, ← peekSecond with
  | some (.number _), _ => indexOrSlice sub .identity
  | some (.symbol .colon), _ => indexOrSlice sub .identity
  | some (.symbol .star), some (.symbol .rightBracket) => do
    advance
    advance
    return .eachItem .identity (← projectionTail sub 20)
  | _, _ => multiSelectList sub

/-- Behind an opening bracket that continues `left`. -/
def followingBracket (left : Expr) : Machine Expr := do
  match ← peek with
  | some (.number _) => indexOrSlice sub left
  | some (.symbol .colon) => indexOrSlice sub left
  | _ => do
    expect .star "number, ':' or '*'"
    expect .rightBracket "']'"
    return .eachItem left (← projectionTail sub 20)

/-- The expression that begins with the token taken. -/
def leading (taken : Slot) : Machine Expr := do
  match taken.token with
  | some (.literal v) => return .literal v
  | some (.rawString text) => return .literal (.str text)
  | some (.identifier name) => return .field name
  | some (.quotedIdentifier name) =>
    match ← peek with
    | some (.symbol .leftParen) =>
      throw (.invalid (.quotedFunctionName name) taken.position)
    | _ => return .field name
  | some (.functionName name) => return .call name (← arguments sub)
  | some (.symbol .current) => return .current
  | some (.symbol .star) => return .eachValue .identity (← projectionTail sub 20)
  | some (.symbol .flatten) => return .flatten .identity (← projectionTail sub 9)
  | some (.symbol .filter) => filter sub .identity
  | some (.symbol .leftBracket) => leadingBracket sub
  | some (.symbol .leftBrace) => multiSelectHash sub
  | some (.symbol .leftParen) => do
    let inner ← sub 0
    expect .rightParen "')'"
    return inner
  | some (.symbol .not) => return .not (← sub 45)
  | some (.symbol .reference) => return .reference (← sub 0)
  | _ => throw (taken.unexpected "an expression")

/-- The expression in which the token taken continues `left`. -/
def following (taken : Slot) (left : Expr) : Machine Expr := do
  match taken.token with
  | some (.symbol .dot) =>
    match ← peek with
    | some (.symbol .star) => do
      advance
      return .eachValue left (← projectionTail sub 40)
    | _ => return .dot left (← dotTail sub 40)
  | some (.symbol .pipe) => return .pipe left (← sub 1)
  | some (.symbol .or) => return .or left (← sub 2)
  | some (.symbol .and) => return .and left (← sub 3)
  | some (.symbol (.comparator op)) => return .compare op left (← sub 5)
  | some (.symbol .flatten) => return .flatten left (← projectionTail sub 9)
  | some (.symbol .filter) => filter sub left
  | some (.symbol .leftBracket) => followingBracket sub left
  | _ => throw (taken.unexpected "an operator")

/-- Continues `left` as long as the current token holds more tightly than the binding power. -/
def continued (binding : Nat) : (budget : Nat) → Expr → Machine Expr
  | 0, _ => endless
  | budget + 1, left => do
    if binding < (← slot 0).bindingPower then
      let taken ← take
      let left ← bounded taken.position (← following sub taken left)
      continued binding budget left
    else return left

/-- An expression, without regard to the count. -/
def operand (binding : Nat) : Machine Expr := do
  let taken ← take
  let left ← bounded taken.position (← leading sub taken)
  rounds fun budget => continued sub binding budget left

end

/-- An expression with at most so many expressions inside each other. The count of expressions is
back at its old value when this one ends, with an error too. -/
def nested : (budget : Nat) → ExprMachine
  | 0, _ => endless
  | budget + 1, binding => fun p =>
    if maxExprDepth ≤ p.depth then do
      let (outcome, p) ← position p
      return (outcome.bind fun position => .error (.tooDeep maxExprDepth position), p)
    else do
      let (outcome, p) ← operand (nested budget) binding { p with depth := p.depth + 1 }
      return (outcome, { p with depth := p.depth - 1 })

/-- An expression that extends as far as the binding power allows. -/
def expression : ExprMachine := fun binding =>
  rounds fun budget => nested budget binding

/-- The expression that all tokens make up; no tokens at all are the current value. -/
def whole : Machine Expr := do
  match ← peek with
  | none => return .identity
  | some _ => do
    let e ← expression 0
    expectEnd "end of expression"
    return e

end Machine

namespace Parser

/-- The ways to call a parser. -/
inductive Call where
  | whole
  | expression (binding : UInt8)

/-- What a call does. -/
def Call.run : Call → Machine Expr
  | .whole => Machine.whole
  | .expression binding => Machine.expression binding.toNat

/-- The state after a number of calls, whatever their outcomes. -/
def after (p : Parser) : List Call → Option Parser
  | [] => some p
  | call :: calls => do
    let (_, p) ← call.run p
    p.after calls

end Parser

end JsonQuery
