import JsonQuery.Double.Basic

/-!
Arithmetic of doubles: every result is the exact value, rounded once. Rounding to a whole number
goes down, up, or to nearest with halves away from zero, and keeps the sign of zero.
-/
namespace JsonQuery.Double

/-- The negative; zero changes its sign too. -/
def neg : Double → Double
  | .finite negative units representable => .finite (!negative) units representable
  | .infinite negative => .infinite (!negative)
  | .nan => .nan

/-- The magnitude. -/
def abs : Double → Double
  | .finite _ units representable => .finite false units representable
  | .infinite _ => .infinite false
  | .nan => .nan

/-- The sum. An exact zero is positive unless both operands are negative. -/
def add : Double → Double → Double
  | .finite n₁ u₁ _, .finite n₂ u₂ _ =>
    let total := signed n₁ u₁ + signed n₂ u₂
    nearestUnits (total < 0 || (total = 0 && n₁ && n₂)) total.natAbs 1
  | .infinite n₁, .infinite n₂ => if n₁ = n₂ then .infinite n₁ else .nan
  | .nan, _ => .nan
  | _, .nan => .nan
  | .infinite n, .finite .. => .infinite n
  | .finite .., .infinite n => .infinite n

/-- The difference, as the sum with the negative. -/
def sub (x y : Double) : Double :=
  x.add y.neg

/-- The product. Zero times infinity is nan. -/
def mul : Double → Double → Double
  | .finite n₁ u₁ _, .finite n₂ u₂ _ => nearestUnits (n₁ != n₂) (u₁ * u₂) unitsPerOne
  | .nan, _ => .nan
  | _, .nan => .nan
  | .infinite n₁, .infinite n₂ => .infinite (n₁ != n₂)
  | .infinite n₁, .finite n₂ u _ => if u = 0 then .nan else .infinite (n₁ != n₂)
  | .finite n₁ u _, .infinite n₂ => if u = 0 then .nan else .infinite (n₁ != n₂)

/-- The quotient. A nonzero number over zero is infinite, zero over zero is nan. -/
def div : Double → Double → Double
  | .finite n₁ u₁ _, .finite n₂ u₂ _ =>
    if u₂ = 0 then if u₁ = 0 then .nan else .infinite (n₁ != n₂)
    else nearestUnits (n₁ != n₂) (u₁ * unitsPerOne) u₂
  | .nan, _ => .nan
  | _, .nan => .nan
  | .infinite _, .infinite _ => .nan
  | .infinite n₁, .finite n₂ _ _ => .infinite (n₁ != n₂)
  | .finite n₁ _ _, .infinite n₂ => ofUnits (n₁ != n₂) 0

/-- The greatest whole double that is not above the value. -/
def floor : Double → Double
  | .finite negative units _ =>
    let whole := units / unitsPerOne
    let up := if negative && units % unitsPerOne != 0 then whole + 1 else whole
    ofUnits negative (up * unitsPerOne)
  | x => x

/-- The least whole double that is not below the value. -/
def ceil : Double → Double
  | .finite negative units _ =>
    let whole := units / unitsPerOne
    let up := if !negative && units % unitsPerOne != 0 then whole + 1 else whole
    ofUnits negative (up * unitsPerOne)
  | x => x

/-- The nearest whole double, halves going away from zero. -/
def round : Double → Double
  | .finite negative units _ =>
    ofUnits negative ((2 * units + unitsPerOne) / (2 * unitsPerOne) * unitsPerOne)
  | x => x

/-- The integer that a finite double is equal to, when it is whole. -/
def whole? : Double → Option Int
  | .finite negative units _ =>
    if units % unitsPerOne = 0 then some (signed negative (units / unitsPerOne)) else none
  | _ => none

/-- `x` raised to the power `n` by repeated squaring, each product rounded. -/
def power (x : Double) (n : Nat) : Double :=
  go n x n one
where
  go : Nat → Double → Nat → Double → Double
    | 0, _, _, result => result
    | steps + 1, base, n, result =>
      if n = 0 then result
      else go steps (base.mul base) (n / 2) (if n % 2 = 1 then result.mul base else result)

end JsonQuery.Double
