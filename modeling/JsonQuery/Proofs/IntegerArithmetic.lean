import Mathlib
import JsonQuery.Proofs.IntegerSums

/-! Sums and differences of two integers. They pass through decimals, which have room for both and for
what comes of them, so that nothing is lost before the result is an integer again. Where 64 bits have
no room for it, it is a double, and never an integer that is wrong. -/
namespace JsonQuery

/-- The number is the integer, or the double nearest to it if 64 bits have no room for it. -/
def Value.Settles (v : Value) (t : Int) : Prop :=
  if fitsInt64 t then ∃ n : Int64, v = .int n ∧ n.toInt = t
  else ∃ x, v = .float x ∧ x.IsWhole (nearestRank t)

/-! ## Operands -/

theorem decimal_add_comm (d e : Decimal) : d.add? e = e.add? d := by
  rw [Decimal.add?, Decimal.add?, Nat.max_comm, Int.add_comm]

theorem double_add_comm (x y : Double) : x.add y = y.add x := by
  cases x with
  | finite first _ _ =>
    cases y with
    | finite second _ _ =>
      rw [Double.add, Double.add, Int.add_comm, Bool.and_assoc, Bool.and_assoc, Bool.and_comm first]
    | infinite => rfl
    | nan => rfl
  | infinite first =>
    cases y with
    | finite => rfl
    | infinite second => cases first <;> cases second <;> rfl
    | nan => rfl
  | nan => cases y <;> rfl

namespace Value

variable {decimals : Decimal → Decimal → Option Decimal} {doubles : Double → Double → Double}

theorem arithmetic_comm (exactly : ∀ d e, decimals d e = decimals e d)
    (nearly : ∀ x y, doubles x y = doubles y x) (a b : Value) :
    arithmetic decimals doubles a b = arithmetic decimals doubles b a := by
  have swapped : (do decimals (← a.toDecimal?) (← b.toDecimal?)) =
      (do decimals (← b.toDecimal?) (← a.toDecimal?)) := by
    cases a.toDecimal? <;> cases b.toDecimal? <;> simp [exactly]
  rw [arithmetic, arithmetic, swapped]
  cases a.toDouble? <;> cases b.toDouble? <;> simp [nearly]

private theorem to_double_none_iff (a : Value) : a.toDouble? = none ↔ a.isNumber = false := by
  cases a <;> simp [toDouble?, isNumber]

private theorem to_decimal_number {a : Value} (known : a.toDecimal? = some d) :
    a.isNumber = true := by
  cases a with
  | int | float => rfl
  | _ => cases known

/-- Only values that are no numbers have no result: doubles stand in wherever decimals have no
room. -/
theorem arithmetic_none_iff (a b : Value) :
    arithmetic decimals doubles a b = none ↔ a.isNumber = false ∨ b.isNumber = false := by
  rw [← to_double_none_iff, ← to_double_none_iff, arithmetic]
  split
  · rename_i d result
    obtain ⟨first, known, rest⟩ := Option.bind_eq_some_iff.mp result
    obtain ⟨second, otherKnown, -⟩ := Option.bind_eq_some_iff.mp rest
    simp [to_double_none_iff, to_decimal_number known, to_decimal_number otherKnown]
  · cases a.toDouble? <;> cases b.toDouble? <;> simp

/-! ## Results -/

theorem of_decimal_settles (range : t.natAbs ≤ 2 ^ 117) : (ofDecimal ⟨t, 0⟩).Settles t := by
  unfold Settles
  split_ifs with fits
  · exact ⟨_, of_decimal_fits fits, fits_to_int fits⟩
  · exact ⟨_, of_decimal_wide (Bool.eq_false_iff.mpr fits), whole_to_double range⟩

theorem of_decimal_integer (n : Int64) : ofDecimal ⟨n.toInt, 0⟩ = .int n := by
  have fits : fitsInt64 n.toInt = true := (fits_iff _).mpr (int64_range n)
  rw [of_decimal_fits fits, Int64.ofInt_toInt]

/-- Decimals have room for every sum of two integers of 64 bits, and for every difference. -/
theorem whole_decimals_room (u : Int) (first : -2 ^ 63 ≤ t ∧ t < 2 ^ 63)
    (second : -2 ^ 63 ≤ u ∧ u ≤ 2 ^ 63) :
    (Decimal.ofInt t).add? (Decimal.ofInt u) = some ⟨t + u, 0⟩ := by
  have room : (t + u).natAbs < Decimal.limit := by
    rw [decimal_limit_eq]
    omega
  rw [Decimal.ofInt, add_whole_decimals, if_pos room]

private theorem add_integers (n m : Int64) :
    (Value.int n).add? (.int m) = some (ofDecimal ⟨n.toInt + m.toInt, 0⟩) := by
  have second := int64_range m
  rw [add?, arithmetic, toDecimal?, toDecimal?, Option.bind_eq_bind, Option.bind_some,
    Option.bind_some, whole_decimals_room _ (int64_range n) (by omega)]

private theorem sub_integers (n m : Int64) :
    (Value.int n).sub? (.int m) = some (ofDecimal ⟨n.toInt - m.toInt, 0⟩) := by
  have second := int64_range m
  have turned : (Decimal.ofInt m.toInt).neg = Decimal.ofInt (-m.toInt) := rfl
  rw [sub?, arithmetic, toDecimal?, toDecimal?, Option.bind_eq_bind, Option.bind_some,
    Option.bind_some, Decimal.sub?, turned, whole_decimals_room _ (int64_range n) (by omega),
    ← Int.sub_eq_add_neg]

private theorem sub_add_integers {n m : Int64} (fits : fitsInt64 (n.toInt + m.toInt) = true) :
    ((Value.int n).add? (.int m)).bind (·.sub? (.int m)) = some (.int n) := by
  rw [add_integers, Option.bind_some, of_decimal_fits fits, sub_integers, fits_to_int fits,
    Int.add_sub_cancel, of_decimal_integer]

/-- Integers are added and subtracted without loss where 64 bits have room for the result, and become
the nearest double where they have none. So a difference takes back a sum that fits. Sums do not
depend on the order of the operands, and only values that are no numbers have none. -/
theorem integers_settled (n m : Int64) (a b : Value) :
    (∃ sum, (Value.int n).add? (.int m) = some sum ∧ sum.Settles (n.toInt + m.toInt)) ∧
      (∃ difference, (Value.int n).sub? (.int m) = some difference ∧
        difference.Settles (n.toInt - m.toInt)) ∧
      a.add? b = b.add? a ∧
      (fitsInt64 (n.toInt + m.toInt) = true →
        ((Value.int n).add? (.int m)).bind (·.sub? (.int m)) = some (.int n)) ∧
      (a.add? b = none ↔ a.isNumber = false ∨ b.isNumber = false) ∧
      (a.sub? b = none ↔ a.isNumber = false ∨ b.isNumber = false) := by
  have first := int64_range n
  have second := int64_range m
  refine ⟨⟨_, add_integers n m, of_decimal_settles ?_⟩, ⟨_, sub_integers n m, of_decimal_settles ?_⟩,
    arithmetic_comm decimal_add_comm double_add_comm a b, sub_add_integers,
    arithmetic_none_iff a b, arithmetic_none_iff a b⟩
  · omega
  · omega

/-- The least integer is added and taken off again, although its negative does not fit into 64
bits. -/
theorem integers_settled_limits :
    fitsInt64 (Int64.maxValue.toInt + Int64.minValue.toInt) = true ∧
      ((Value.int Int64.maxValue).add? (.int Int64.minValue)).bind (·.sub? (.int Int64.minValue)) =
        some (.int Int64.maxValue) := by
  have fits : fitsInt64 (Int64.maxValue.toInt + Int64.minValue.toInt) = true := by decide
  exact ⟨fits, (integers_settled Int64.maxValue Int64.minValue .null .null).2.2.2.1 fits⟩

end Value

end JsonQuery
