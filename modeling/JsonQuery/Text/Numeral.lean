import JsonQuery.Double.Text

/-!
Unsigned decimal numerals: digits, an optional point with digits, and an optional exponent. Each
reader of numbers scans a numeral and then decides which forms it admits and which sign may stand
before it.
-/
namespace JsonQuery

/-- The parts of a numeral as they are written. -/
structure Numeral where
  whole : List Char
  fraction : Option (List Char)
  exponent : Option Int

namespace Numeral

/-- The digits behind a point, when there is a point. -/
def scanFraction : List Char → Option (List Char) × List Char
  | '.' :: rest => let (digits, rest) := spanDigits rest; (some digits, rest)
  | cs => (none, cs)

/-- The digits of an exponent; at least one is needed. -/
def scanExponentDigits (negative : Bool) (cs : List Char) : Option (Int × List Char) :=
  match spanDigits cs with
  | ([], _) => none
  | (digits, rest) => some (signed negative (digitsValue digits), rest)

/-- An exponent, when there is the letter of one; the letter alone is an error. -/
def scanExponent (cs : List Char) : Option (Option Int × List Char) :=
  match cs with
  | [] => some (none, [])
  | c :: rest =>
    if c = 'e' ∨ c = 'E' then do
      let (exponent, rest) ←
        match rest with
        | '-' :: digits => scanExponentDigits true digits
        | '+' :: digits => scanExponentDigits false digits
        | digits => scanExponentDigits false digits
      return (some exponent, rest)
    else some (none, cs)

/-- The longest numeral at the front of a text. -/
def scan (cs : List Char) : Option (Numeral × List Char) := do
  let (whole, rest) := spanDigits cs
  let (fraction, rest) := scanFraction rest
  let (exponent, rest) ← scanExponent rest
  return (⟨whole, fraction, exponent⟩, rest)

/-- Whether there is neither a point nor an exponent. -/
def isInteger (n : Numeral) : Bool :=
  n.fraction.isNone && n.exponent.isNone

/-- The digits behind the point, none when there is no point. -/
def fractionDigits (n : Numeral) : List Char :=
  n.fraction.getD []

/-- The double nearest to the numeral with the given sign. A reader that rounds the digits and then
their product with a power of ten may find a neighbour of it. What is claimed of texts that are
written and read assumes of a reader that it finds the double which a text was written for, and so
makes no difference between the two; this reader does find it. -/
def toDouble (negative : Bool) (n : Numeral) : Double :=
  .ofScientific negative (digitsValue (n.whole ++ n.fractionDigits))
    (n.exponent.getD 0 - n.fractionDigits.length)

/-- The integer with the given sign, for a numeral that is only digits. -/
def toInt (negative : Bool) (n : Numeral) : Int :=
  signed negative (digitsValue n.whole)

end Numeral

end JsonQuery
