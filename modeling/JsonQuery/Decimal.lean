import JsonQuery.Double.Arithmetic

/-!
Decimal numbers with a coefficient below two to the power 96 and at most 28 digits after the
point. They hold every 64-bit integer exactly; a double enters with about 16 significant digits,
so that sums of short decimal fractions come out as one expects. Sums are exact when they fit and
lose trailing digits, with halves to even, when they do not.
-/
namespace JsonQuery

/-- The number `coefficient / 10 ^ scale`. -/
structure Decimal where
  coefficient : Int
  scale : Nat
  deriving DecidableEq

namespace Decimal

/-- Coefficients are smaller than this in magnitude. -/
def limit : Nat := twoPow 96

/-- The most digits after the point. -/
def maxScale : Nat := 28

/-- An integer, without places. -/
def ofInt (n : Int) : Decimal :=
  ⟨n, 0⟩

/-- Turns `m · 2 ^ -halvings` into a coefficient over a power of ten: each halving divides an even
coefficient by two or multiplies it by five, and drops the lowest bit when there is no room. The
second component is the number of places. -/
def absorbHalvings : (halvings : Nat) → (m places : Nat) → Nat × Nat
  | 0, m, places => (m, places)
  | halvings + 1, m, places =>
    if m % 2 = 0 then absorbHalvings halvings (m / 2) (places - 1)
    else if 5 * m < limit then absorbHalvings halvings (5 * m) places
    else absorbHalvings halvings (m / 2) (places - 1)

/-- Drops the last digit, rounding a half up. -/
def dropDigit (m : Nat) : Nat :=
  if 5 ≤ m % 10 then m / 10 + 1 else m / 10

/-- Drops places beyond the greatest scale; a coefficient that vanishes on the way is zero. -/
def limitScale : (places : Nat) → (m : Nat) → Nat × Nat
  | 0, m => (m, 0)
  | places + 1, m =>
    if places + 1 ≤ maxScale then (m, places + 1)
    else if m / 10 = 0 then (0, 0)
    else limitScale places (dropDigit m)

/-- Drops places while the coefficient has more than 52 bits. -/
def limitBits : (places : Nat) → (m : Nat) → Nat × Nat
  | 0, m => (m, 0)
  | places + 1, m =>
    if twoPow 52 ≤ m then limitBits places (dropDigit m) else (m, places + 1)

/-- Drops zeros at the end of the places. -/
def stripZeros : (places : Nat) → (m : Nat) → Nat × Nat
  | 0, m => (m, 0)
  | places + 1, m =>
    if m % 10 = 0 then stripZeros places (m / 10) else (m, places + 1)

/-- The decimal with about the precision of the double; none for a magnitude of `2 ^ 96` and
beyond. -/
def ofDouble? : Double → Option Decimal
  | .finite negative units _ =>
    let shift := units.log2 - 52
    if 1074 ≤ shift then
      let m := units / unitsPerOne
      if m < limit then some ⟨signed negative m, 0⟩ else none
    else
      let halvings := 1074 - shift
      let (m, places) := absorbHalvings halvings (units / twoPow shift) halvings
      let (m, places) := limitScale places m
      let (m, places) := limitBits places m
      let (m, places) := stripZeros places m
      some ⟨signed negative m, places⟩
  | _ => none

/-- A coefficient that is too large loses as many places as it takes for it to fit. -/
def fit? (c : Int) (scale : Nat) : Option Decimal :=
  (List.range (scale + 1)).findSome? fun dropped =>
    let m := divNearestEven c.natAbs (tenPow dropped)
    if m < limit then some ⟨signed (c < 0) m, scale - dropped⟩ else none

/-- The sum; none when its whole part does not fit. -/
def add? (a b : Decimal) : Option Decimal :=
  let scale := max a.scale b.scale
  fit? (a.coefficient * tenPow (scale - a.scale) + b.coefficient * tenPow (scale - b.scale)) scale

/-- The negative. -/
def neg (a : Decimal) : Decimal :=
  ⟨-a.coefficient, a.scale⟩

/-- The difference; none when its whole part does not fit. -/
def sub? (a b : Decimal) : Option Decimal :=
  a.add? b.neg

/-- The equal 64-bit integer, when the decimal is whole and in range. -/
def toInt64? (a : Decimal) : Option Int64 :=
  if a.coefficient % tenPow a.scale = 0 then JsonQuery.toInt64? (a.coefficient / tenPow a.scale)
  else none

/-- A double near the decimal: the whole part plus the rounded fraction, then rounded to the
places of the decimal in double arithmetic. -/
def toDouble (a : Decimal) : Double :=
  let negative := decide (a.coefficient < 0)
  let precision := tenPow a.scale
  let whole := a.coefficient.natAbs / precision
  let fraction := a.coefficient.natAbs % precision
  let wholePart := Double.ofInt whole
  let magnitude :=
    if fraction = 0 then wholePart
    else
      let sum := wholePart.add ((Double.ofInt fraction).div (Double.ofInt precision))
      let factor := (Double.ofInt 10).power a.scale
      (sum.mul factor).round.div factor
  if negative then magnitude.neg else magnitude

end Decimal

end JsonQuery
