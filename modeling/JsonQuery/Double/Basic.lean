import JsonQuery.Powers
import JsonQuery.Text.Digits

/-!
Binary floating-point numbers of 64 bits, as exact integers. Every finite double is a whole number
of units of size two to the power -1074, and its units have at most 53 significant bits; so values
are compared and combined in the integers and rounded once, to nearest with ties to even.
-/
namespace JsonQuery

/-- The number one, counted in units. -/
def unitsPerOne : Nat := twoPow 1074

/-- All finite magnitudes lie below this many units. -/
def unitsLimit : Nat := twoPow 2098

/-- The distance between neighbouring doubles around `units`. -/
def quantum (units : Nat) : Nat := twoPow (units.log2 - 52)

/-- The magnitudes that a finite double can have. -/
def Representable (units : Nat) : Prop :=
  units < unitsLimit ∧ quantum units ∣ units

instance (units : Nat) : Decidable (Representable units) :=
  inferInstanceAs (Decidable (_ ∧ _))

/-- A double is a signed representable magnitude, an infinity, or not a number. -/
inductive Double where
  | finite (negative : Bool) (units : Nat) (representable : Representable units)
  | infinite (negative : Bool)
  | nan
  deriving DecidableEq

/-- The quotient rounded to the nearest integer, a half going to the even neighbour. -/
def divNearestEven (n d : Nat) : Nat :=
  let q := n / d
  let r := 2 * (n % d)
  if r < d then q
  else if d < r then q + 1
  else if q % 2 = 0 then q
  else q + 1

/-- The quotient `n / d`, in units, rounded to 53 significant bits. -/
def roundUnits (n d : Nat) : Nat :=
  let step := quantum (n / d)
  divNearestEven n (d * step) * step

namespace Double

/-- The double of a rounded magnitude; one that is too large becomes infinite. -/
def ofUnits (negative : Bool) (units : Nat) : Double :=
  if representable : Representable units then .finite negative units representable
  else .infinite negative

/-- The double nearest to `n / d` units. -/
def nearestUnits (negative : Bool) (n d : Nat) : Double :=
  ofUnits negative (roundUnits n d)

/-- The double nearest to the fraction `n / d`. -/
def nearest (negative : Bool) (n d : Nat) : Double :=
  nearestUnits negative (n * unitsPerOne) d

/-- The double nearest to an integer. -/
def ofInt (n : Int) : Double :=
  nearest (n < 0) n.natAbs 1

/-- The number one. -/
def one : Double := ofInt 1

/-- Whether a double is neither infinite nor nan. -/
def isFinite : Double → Bool
  | .finite .. => true
  | _ => false

/-- The position of a double on the integer line of units, infinities beyond all finite values. -/
def rank? : Double → Option Int
  | .finite negative units _ => some (signed negative units)
  | .infinite negative => some (signed negative unitsLimit)
  | .nan => none

/-- The order of two doubles by value. Zero has one value whatever its sign, and nan has none. -/
def compare? (x y : Double) : Option Ordering := do
  let a ← x.rank?
  let b ← y.rank?
  return compare a b

end Double

end JsonQuery
