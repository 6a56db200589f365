import JsonQuery.Expr.Depth
import JsonQuery.Expr.Rules

/-!
Reading expressions from tokens. The reader calls the rules with itself for their parts, never
nests deeper than a limit, and builds no expression that is deeper than the limit. Without a limit
the same reader accepts expressions of any depth.
-/
namespace JsonQuery

/-- The limit for expressions. -/
def maxExprDepth : Nat := 128

namespace Expr

open Parse

/-- Fails at the next token when as many readers are at work as the limit allows. -/
def guardNesting (limit : Option Nat) (nesting : Nat) : Parse Unit := do
  match limit with
  | some n => if n ≤ nesting then fail (.tooDeep n (← position)) else return ()
  | none => return ()

/-- Lets an expression pass that is not deeper than the limit. -/
def bounded (limit : Option Nat) (position : Nat) (e : Expr) : Parse Expr := do
  match limit with
  | some n => if e.deeperThan n then fail (.tooDeep n position) else return e
  | none => return e

/-- Continues `left` as long as the next token holds more tightly than the binding power. Every
round takes a token, so the number of tokens left is enough of a budget. -/
def continued (limit : Option Nat) (sub : ExprReader) (binding : Nat) :
    (budget : Nat) → Expr → Parse Expr
  | 0, left => return left
  | budget + 1, left => do
    match ← peek with
    | some token =>
      if binding < token.bindingPower then do
        let start ← position
        advance
        let left ← Rules.following sub ⟨token, start⟩ left
        let left ← bounded limit start left
        continued limit sub binding budget left
      else return left
    | none => return left

/-- An expression that extends as far as the binding power allows. Each reader takes a token before
it calls another, so the number of tokens left is enough of a budget. -/
def reader (limit : Option Nat) : (budget nesting : Nat) → ExprReader
  | 0, nesting, _ => do
    guardNesting limit nesting
    failHere "an expression"
  | budget + 1, nesting, binding => do
    guardNesting limit nesting
    match ← take with
    | none => failHere "an expression"
    | some t => do
      let sub := reader limit budget (nesting + 1)
      let left ← Rules.leading sub t
      let left ← bounded limit t.position left
      fun s => continued limit sub binding s.upcoming.length left s

/-- The next expression of a stream that extends as far as the binding power allows. -/
def readWithin (limit : Option Nat) (binding : Nat) : Parse Expr :=
  fun s => reader limit s.upcoming.length 0 binding s

/-- The expression that a whole stream makes up; an empty stream is the current value. -/
def readAll (limit : Option Nat) : Parse Expr := do
  match ← peek with
  | none => return .identity
  | some _ => do
    let e ← readWithin limit 0
    expectEnd "end of expression"
    return e

/-- The expression that a text denotes, of any depth unless there is a limit. -/
def parseWithin (limit : Option Nat) (text : String) : Except ParseError Expr :=
  match TokenStream.ofText text with
  | .error e => .error (.lex e)
  | .ok stream => (readAll limit stream).1

/-- The expression that a text denotes. -/
def parse (text : String) : Except ParseError Expr :=
  parseWithin (some maxExprDepth) text

end Expr

end JsonQuery
