import JsonQuery.Text.Blank
import JsonQuery.Text.Numeral
import JsonQuery.Value.Basic

/-!
The number that a text stands for. More forms are admitted than in JSON: blanks around the number,
a plus sign, zeros in front, and a point with digits on one side only.
-/
namespace JsonQuery

/-- Splits off the sign of a number, which may be a plus. -/
def splitSign : List Char → Bool × List Char
  | '-' :: rest => (true, rest)
  | '+' :: rest => (false, rest)
  | cs => (false, cs)

/-- The value of a numeral with at least one digit before its exponent. Digits that fit into 64
bits are an integer; any other numeral is a double, unless it is beyond the range of doubles. -/
def Numeral.toValue? (negative : Bool) (n : Numeral) : Option Value :=
  if n.whole.isEmpty && n.fractionDigits.isEmpty then none
  else
    match if n.isInteger then toInt64? (n.toInt negative) else none with
    | some i => some (.int i)
    | none =>
      let x := n.toDouble negative
      if x.isFinite then some (.float x) else none

/-- The number that a text stands for, blanks around it aside. -/
def readNumber? (cs : List Char) : Option Value := do
  let (negative, digits) := splitSign (trimBlank cs)
  match ← Numeral.scan digits with
  | (n, []) => n.toValue? negative
  | _ => none

end JsonQuery
