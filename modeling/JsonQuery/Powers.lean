/-!
Powers of two and of ten: the scales of binary and of decimal numbers.
-/
namespace JsonQuery

/-- Two to the power `n`. -/
def twoPow (n : Nat) : Nat :=
  Nat.pow 2 n

/-- Ten to the power `n`. -/
def tenPow (n : Nat) : Nat :=
  Nat.pow 10 n

end JsonQuery
