import JsonQuery.Decimal
import JsonQuery.Value.Basic

/-!
Sums and differences of numbers. They are taken in decimals, so that a whole result comes back as
an integer and short fractions stay short; where a decimal has no room they are taken in doubles.
-/
namespace JsonQuery.Value

/-- The number as a decimal. -/
def toDecimal? : Value → Option Decimal
  | .int n => some (.ofInt n.toInt)
  | .float x => Decimal.ofDouble? x
  | _ => none

/-- The value of a decimal: an integer when it is whole and in range. -/
def ofDecimal (d : Decimal) : Value :=
  match d.toInt64? with
  | some n => .int n
  | none => .float d.toDouble

/-- Applies an operation to two numbers in decimals when both operands and the result have room,
otherwise in doubles. Values that are no numbers have no result. -/
def arithmetic (exact : Decimal → Decimal → Option Decimal)
    (rounded : Double → Double → Double) (a b : Value) : Option Value :=
  match (do exact (← a.toDecimal?) (← b.toDecimal?)) with
  | some d => some (ofDecimal d)
  | none => do return ofDouble (rounded (← a.toDouble?) (← b.toDouble?))

/-- The sum of two numbers, none for other values. -/
def add? (a b : Value) : Option Value :=
  arithmetic Decimal.add? Double.add a b

/-- The difference of two numbers, none for other values. -/
def sub? (a b : Value) : Option Value :=
  arithmetic Decimal.sub? Double.sub a b

/-- The sum of numbers from left to right, starting at zero. A value that cannot be added is
passed over. -/
def sum (items : List Value) : Value :=
  items.foldl (fun total item => (total.add? item).getD total) (.int 0)

end JsonQuery.Value
