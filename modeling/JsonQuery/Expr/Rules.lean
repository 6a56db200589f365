import JsonQuery.Expr.Basic
import JsonQuery.Token.Stream

/-!
The rules by which tokens form expressions. A token begins an expression or continues one to its
left, and binding powers say how tightly it holds. Every rule is given the reader of its parts, so
that none of them is recursive; the reader is put together elsewhere.
-/
namespace JsonQuery

/-- How tightly a token holds the expression to its left; zero for one that never continues an
expression. -/
def Token.bindingPower : Token → Nat
  | .symbol .pipe => 1
  | .symbol .or => 2
  | .symbol .and => 3
  | .symbol (.comparator _) => 5
  | .symbol .flatten => 9
  | .symbol .star => 20
  | .symbol .filter => 21
  | .symbol .dot => 40
  | .symbol .not => 45
  | .symbol .leftBrace => 50
  | .symbol .leftBracket => 55
  | .symbol .leftParen => 60
  | _ => 0

/-- Tokens that hold at least this tightly continue the elements of a projection. -/
def projectionStop : Nat := 10

/-- A reader of the expression that extends as far as the given binding power allows. -/
abbrev ExprReader := Nat → Parse Expr

namespace Rules

open Parse

/-- The elements of a multi-select list, behind its bracket. -/
def multiSelectList (sub : ExprReader) : Parse Expr := do
  return .list (← commaList (sub 0) .rightBracket "',' or ']'")

/-- The key of an entry, quoted or not. -/
def hashKey : Parse String := do
  match ← take with
  | some ⟨.identifier name, _⟩ => return name
  | some ⟨.quotedIdentifier name, _⟩ => return name
  | some t => fail (.unexpectedToken t.token "identifier as hash key" t.position)
  | none => failHere "identifier as hash key"

/-- A key with its colon and its expression. -/
def hashEntry (sub : ExprReader) : Parse (String × Expr) := do
  let key ← hashKey
  expect .colon "':'"
  return (key, ← sub 0)

/-- The entries of a multi-select hash, behind its brace. -/
def multiSelectHash (sub : ExprReader) : Parse Expr := do
  return .hash (← commaList (hashEntry sub) .rightBrace "',' or '\x7d'")

/-- The arguments of a function, with their parentheses. -/
def arguments (sub : ExprReader) : Parse (List Expr) := do
  expect .leftParen "'('"
  match ← peek with
  | some (.symbol .rightParen) => do
    advance
    return []
  | _ => commaList (sub 0) .rightParen "',' or ')'"

/-- What may stand behind a dot. -/
def dotTail (sub : ExprReader) (binding : Nat) : Parse Expr := do
  match ← peek with
  | some (.identifier _) => sub binding
  | some (.quotedIdentifier _) => sub binding
  | some (.functionName _) => sub binding
  | some (.symbol .star) => sub binding
  | some (.symbol .leftBracket) => do
    advance
    multiSelectList sub
  | some (.symbol .leftBrace) => do
    advance
    multiSelectHash sub
  | _ => failHere "identifier, '*', '[' or '\x7b' after '.'"

/-- What is applied to each element of a projection: everything up to the next token that holds
less tightly than the stop. -/
def projectionTail (sub : ExprReader) (binding : Nat) : Parse Expr := do
  match ← peek with
  | some (.symbol .leftBracket) => sub binding
  | some (.symbol .filter) => sub binding
  | some (.symbol .dot) => do
    advance
    dotTail sub binding
  | some token =>
    if token.bindingPower < projectionStop then return .identity
    else failHere "'.', '[' or '[?' after a projection"
  | none => return .identity

/-- A filter on `left`, behind its opening symbol. -/
def filter (sub : ExprReader) (left : Expr) : Parse Expr := do
  let predicate ← sub 0
  expect .rightBracket "']'"
  return .filter left predicate (← projectionTail sub 21)

/-- The parts of a slice, up to its closing bracket, with at most the given number of colons
between them. -/
def sliceParts (colons : Nat) : Parse (List (Option Int64)) := do
  let part ← match ← peek with
    | some (.number n) => do
      advance
      pure (some n)
    | _ => pure none
  match ← peek with
  | some (.symbol .rightBracket) => return [part]
  | some (.symbol .colon) =>
    match colons with
    | 0 => do fail (.invalid .tooManyColons (← position))
    | colons + 1 => do
      advance
      return part :: (← sliceParts colons)
  | _ => failHere "number, ':' or ']'"

/-- A slice with its closing bracket. -/
def slice : Parse Expr := do
  let parts ← sliceParts 2
  let closing ← position
  expect .rightBracket "']'"
  let part (i : Nat) : Option Int64 := (parts[i]?).join
  if part 2 = some 0 then fail (.invalid .zeroStep closing)
  else return .slice (part 0) (part 1) (part 2)

/-- An index or a slice of `left`. One that stands first in an expression needs no left side. -/
def subscript (left right : Expr) : Expr :=
  match left with
  | .identity => right
  | _ => .bracket left right

/-- An index of `left`, or a slice of it, whose items are then projected. -/
def indexOrSlice (sub : ExprReader) (left : Expr) : Parse Expr := do
  match ← peek, ← peekSecond with
  | some (.symbol .colon), _ => sliced
  | _, some (.symbol .colon) => sliced
  | some (.number n), _ => do
    advance
    expect .rightBracket "']'"
    return subscript left (.index n)
  | _, _ => failHere "number"
where
  sliced : Parse Expr := do
    let right ← slice
    return .eachItem (subscript left right) (← projectionTail sub 20)

/-- A comparison with `left`. -/
def comparison (sub : ExprReader) (op : Comparator) (left : Expr) : Parse Expr := do
  return .compare op left (← sub 5)

/-- Behind an opening bracket at the start of an expression. -/
def leadingBracket (sub : ExprReader) : Parse Expr := do
  match ← peek, ← peekSecond with
  | some (.number _), _ => indexOrSlice sub .identity
  | some (.symbol .colon), _ => indexOrSlice sub .identity
  | some (.symbol .star), some (.symbol .rightBracket) => do
    advance
    advance
    return .eachItem .identity (← projectionTail sub 20)
  | _, _ => multiSelectList sub

/-- Behind an opening bracket that continues `left`. -/
def followingBracket (sub : ExprReader) (left : Expr) : Parse Expr := do
  match ← peek with
  | some (.number _) => indexOrSlice sub left
  | some (.symbol .colon) => indexOrSlice sub left
  | _ => do
    expect .star "number, ':' or '*'"
    expect .rightBracket "']'"
    return .eachItem left (← projectionTail sub 20)

/-- The expression that begins with the given token, which has been taken. -/
def leading (sub : ExprReader) (t : PlacedToken) : Parse Expr := do
  match t.token with
  | .literal v => return .literal v
  | .rawString text => return .literal (.str text)
  | .number _ => fail (.unexpectedToken t.token "an expression" t.position)
  | .identifier name => return .field name
  | .quotedIdentifier name =>
    match ← peek with
    | some (.symbol .leftParen) => fail (.invalid (.quotedFunctionName name) t.position)
    | _ => return .field name
  | .functionName name => return .call name (← arguments sub)
  | .symbol .current => return .current
  | .symbol .star => return .eachValue .identity (← projectionTail sub 20)
  | .symbol .flatten => return .flatten .identity (← projectionTail sub 9)
  | .symbol .filter => filter sub .identity
  | .symbol .leftBracket => leadingBracket sub
  | .symbol .leftBrace => multiSelectHash sub
  | .symbol .leftParen => do
    let inner ← sub 0
    expect .rightParen "')'"
    return inner
  | .symbol .not => return .not (← sub 45)
  | .symbol .reference => return .reference (← sub 0)
  | .symbol _ => fail (.unexpectedToken t.token "an expression" t.position)

/-- The expression in which the given token, which has been taken, continues `left`. -/
def following (sub : ExprReader) (t : PlacedToken) (left : Expr) : Parse Expr := do
  match t.token with
  | .symbol .dot =>
    match ← peek with
    | some (.symbol .star) => do
      advance
      return .eachValue left (← projectionTail sub 40)
    | _ => return .dot left (← dotTail sub 40)
  | .symbol .pipe => return .pipe left (← sub 1)
  | .symbol .or => return .or left (← sub 2)
  | .symbol .and => return .and left (← sub 3)
  | .symbol (.comparator op) => comparison sub op left
  | .symbol .flatten => return .flatten left (← projectionTail sub 9)
  | .symbol .filter => filter sub left
  | .symbol .leftBracket => followingBracket sub left
  | _ => fail (.unexpectedToken t.token "an operator" t.position)

end Rules

end JsonQuery
