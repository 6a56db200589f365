import JsonQuery.Double.Basic

/-!
Decimal text of doubles. Reading takes the double nearest to digits times a power of ten. Writing
chooses the coarsest power-of-ten grid on which a point reads back as the same double, and on that
grid the point nearest to the exact value; the finest grid holds every finite double exactly, so
the written digits always read back.
-/
namespace JsonQuery

namespace Double

/-- The double nearest to `digits · 10 ^ exponent`. Beyond 310 powers of ten above or 400 below
the digits the result is infinite or zero whatever the digits are. -/
def ofScientific (negative : Bool) (digits : Nat) (exponent : Int) : Double :=
  if digits = 0 then ofUnits negative 0
  else if 310 ≤ exponent then .infinite negative
  else if exponent + digits.log2 + 400 < 0 then ofUnits negative 0
  else if 0 ≤ exponent then nearest negative (digits * tenPow exponent.toNat) 1
  else nearest negative digits (tenPow (-exponent).toNat)

end Double

/-- One unit, counted in steps of `10 ^ -1074`. -/
@[irreducible]
def finestPerUnit : Nat := Nat.pow 5 1074

/-- The point chosen on the grid of the given step: the one of the two neighbours of `amount` that
reads back as `units`, the nearer one when both do. -/
@[irreducible]
def gridPoint? (tiesUp : Bool) (units amount step : Nat) : Option Nat :=
  let low := amount / step
  let readsBack (point : Nat) : Bool := roundUnits (point * step) finestPerUnit == units
  match readsBack low, readsBack (low + 1) with
  | true, true =>
    let twice := 2 * (amount % step)
    if twice < step then some low
    else if step < twice then some (low + 1)
    else if tiesUp || low % 2 == 1 then some (low + 1)
    else some low
  | true, false => some low
  | false, true => some (low + 1)
  | false, false => none

/-- Searches the grids `10 ^ level` downwards for the first with a point, and gives that point and
its level. On level 0 the amount itself is a point. -/
@[irreducible]
def coarsestPoint (tiesUp : Bool) (units amount : Nat) : Nat → Nat × Nat
  | 0 => (amount, 0)
  | level + 1 =>
    match gridPoint? tiesUp units amount (tenPow (level + 1)) with
    | some point => (point, level + 1)
    | none => coarsestPoint tiesUp units amount level

/-- The point of the coarsest grid and its level. The search starts on a grid whose step is larger
than the amount, since `10 ^ 30103 > 2 ^ 100000`. -/
def shortestPoint (tiesUp : Bool) (units amount : Nat) : Nat × Nat :=
  coarsestPoint tiesUp units amount ((amount.log2 + 1) * 30103 / 100000 + 1)

/-- The shortest digits and the exponent of ten of a magnitude. -/
def shortestDigits (tiesUp : Bool) (units : Nat) : Nat × Int :=
  (shortestPoint tiesUp units (units * finestPerUnit)).map id fun level : Nat => (level : Int) - 1074

/-- How a notation lays out the shortest digits: the exponents that are written positionally,
whether a positive exponent has a sign, and which of two equally near digits is chosen. -/
structure FloatLayout where
  leastPositional : Int
  greatestPositional : Int
  plusSign : Bool
  tiesUp : Bool

namespace FloatLayout

/-- The digits with a point, and with a zero wherever no digit stands beside the point. -/
def positional (digits : List Char) (exponent : Int) : List Char :=
  if 0 ≤ exponent then digits ++ List.replicate exponent.toNat '0' ++ ['.', '0']
  else
    let places := (-exponent).toNat
    if places < digits.length then
      digits.take (digits.length - places) ++ '.' :: digits.drop (digits.length - places)
    else '0' :: '.' :: (List.replicate (places - digits.length) '0' ++ digits)

/-- The digits with a point after the first, and the exponent of ten behind the letter. -/
def scientific (layout : FloatLayout) (digits : List Char) (power : Int) : List Char :=
  let significand :=
    match digits with
    | first :: second :: rest => first :: '.' :: second :: rest
    | short => short
  let sign := if 0 ≤ power && layout.plusSign then ['+'] else []
  significand ++ 'e' :: (sign ++ intDigits power)

/-- The text of digits and their exponent of ten. -/
def spell (layout : FloatLayout) (number : Nat × Int) : List Char :=
  let digits := natDigits number.1
  let power := number.2 + digits.length - 1
  if layout.leastPositional ≤ power && power ≤ layout.greatestPositional then
    positional digits number.2
  else layout.scientific digits power

/-- The text of a finite magnitude. -/
def magnitude (layout : FloatLayout) (units : Nat) : List Char :=
  if units = 0 then ['0', '.', '0'] else layout.spell (shortestDigits layout.tiesUp units)

/-- The text of a finite double with its sign, zero included. -/
def write (layout : FloatLayout) (negative : Bool) (units : Nat) : List Char :=
  if negative then '-' :: layout.magnitude units else layout.magnitude units

end FloatLayout

end JsonQuery
