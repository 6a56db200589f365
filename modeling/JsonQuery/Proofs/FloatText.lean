import JsonQuery.Proofs.Rounding
import JsonQuery.Proofs.WrittenTokens

/-! The digits that are chosen for a double read back as the same double: they are chosen so that
they round to it, and reading rounds the same ratio. -/
namespace JsonQuery

/-! ## Powers of ten -/

theorem tenPow_pos (n : Nat) : 0 < tenPow n :=
  Nat.pow_pos (by decide)

theorem tenPow_add (n m : Nat) : tenPow (n + m) = tenPow n * tenPow m :=
  Nat.pow_add 10 n m

private theorem tenPow_le (le : n ≤ m) : tenPow n ≤ tenPow m :=
  Nat.pow_le_pow_right (by decide) le

/-- Five to the power `n`. -/
def fivePow (n : Nat) : Nat :=
  Nat.pow 5 n

theorem tenPow_parts (n : Nat) : tenPow n = twoPow n * fivePow n :=
  Nat.mul_pow 2 5 n

private theorem finestPerUnit_eq : finestPerUnit = fivePow 1074 := by
  decide +kernel

theorem finestPerUnit_pos : 0 < finestPerUnit := by
  have positive (n : Nat) : 0 < fivePow n := Nat.pow_pos (by decide)
  rw [finestPerUnit_eq]
  exact positive 1074

/-- The finest grid has a point on every unit. -/
theorem tenPow_finest : tenPow 1074 = unitsPerOne * finestPerUnit := by
  rw [tenPow_parts, unitsPerOne_eq, finestPerUnit_eq]

/-! ## Rounding digits -/

private theorem twoPow_le_round (positive : 0 < d) (le : twoPow e * d ≤ n) :
    twoPow e ≤ roundUnits n d :=
  two_pow_le_round positive le

section

/-- The digits `n` at the power `level` of ten, counted on the finest grid, round to `units`. -/
def RoundsTo (units n level : Nat) : Prop :=
  roundUnits (n * tenPow level) finestPerUnit = units

variable {units n level : Nat} (representable : Representable units)
  (rounds : RoundsTo units n level)
include representable rounds

/-- A double that is finite has no digits on grids from the three hundred and tenth on. -/
theorem level_lt (positive : 0 < n) : level < 1384 := by
  by_contra high
  have large : twoPow (1024 + 1074) * finestPerUnit ≤ n * tenPow level := by
    have bits : twoPow 1024 ≤ tenPow 310 := by decide +kernel
    calc twoPow (1024 + 1074) * finestPerUnit = twoPow 1024 * (unitsPerOne * finestPerUnit) := by
          rw [twoPow_add, unitsPerOne_eq, Nat.mul_assoc]
      _ ≤ tenPow 310 * tenPow 1074 := by
          rw [tenPow_finest]
          exact Nat.mul_le_mul_right _ bits
      _ = tenPow (310 + 1074) := (tenPow_add 310 1074).symm
      _ ≤ tenPow level := tenPow_le (Nat.not_lt.mp high)
      _ ≤ n * tenPow level := Nat.le_mul_of_pos_left _ positive
  have above : twoPow (1024 + 1074) ≤ roundUnits _ _ := twoPow_le_round finestPerUnit_pos large
  have limit : unitsLimit = twoPow (1024 + 1074) := unitsLimit_eq
  have below := representable.1
  rw [rounds] at above
  rw [limit] at below
  omega

omit representable in
/-- Digits that round to something do not lie too far behind the point. -/
theorem level_ge (nonzero : units ≠ 0) : 674 ≤ level + n.log2 := by
  by_contra low
  have tiny : 2 * (n * tenPow level) < finestPerUnit := by
    have bound : n ≤ 2 * tenPow n.log2 := by
      calc n ≤ twoPow (n.log2 + 1) := Nat.le_of_lt Nat.lt_log2_self
        _ = 2 * twoPow n.log2 := by rw [twoPow_add, Nat.mul_comm]; rfl
        _ ≤ 2 * tenPow n.log2 := Nat.mul_le_mul_left _ (Nat.pow_le_pow_left (by decide) _)
    have room : 4 * tenPow 673 < finestPerUnit := by decide +kernel
    calc 2 * (n * tenPow level) ≤ 2 * (2 * tenPow n.log2 * tenPow level) :=
          Nat.mul_le_mul_left _ (Nat.mul_le_mul_right _ bound)
      _ = 4 * tenPow (n.log2 + level) := by
          rw [tenPow_add]
          ring
      _ ≤ 4 * tenPow 673 := Nat.mul_le_mul_left _ (tenPow_le (by omega))
      _ < finestPerUnit := room
  exact nonzero (rounds.symm.trans (round_tiny tiny))

/-- Digits at a power of ten are read as the double that they round to. -/
theorem of_scientific_round (positive : 0 < n) (nonzero : units ≠ 0) (negative : Bool) :
    Double.ofScientific negative n ((level : Int) - 1074) =
      .finite negative units representable := by
  have low := level_ge rounds nonzero
  have high := level_lt representable rounds positive
  have near (numerator denominator : Nat) (some : 0 < denominator)
      (same : numerator * unitsPerOne * finestPerUnit = n * tenPow level * denominator) :
      Double.nearestUnits negative (numerator * unitsPerOne) denominator =
        .finite negative units representable := by
    rw [Double.nearestUnits, round_ratio some finestPerUnit_pos same, rounds,
      Double.of_units_finite representable]
  unfold Double.ofScientific
  rw [if_neg positive.ne', if_neg (by omega), if_neg (by omega)]
  split
  · rename_i whole
    obtain ⟨power, rfl⟩ : ∃ power, level = power + 1074 := ⟨level - 1074, by omega⟩
    have exponent : ((power + 1074 : Nat) - 1074 : Int).toNat = power := by omega
    rw [exponent, Double.nearest]
    apply near _ _ Nat.one_pos
    rw [tenPow_add, tenPow_finest]
    ring
  · rename_i part
    obtain ⟨power, same⟩ : ∃ power, power + level = 1074 := ⟨1074 - level, by omega⟩
    have exponent : (-((level : Int) - 1074)).toNat = power := by omega
    rw [exponent, Double.nearest]
    apply near _ _ (tenPow_pos power)
    rw [Nat.mul_assoc, ← tenPow_finest, Nat.mul_assoc, ← tenPow_add, Nat.add_comm, same]

end

/-! ## Choosing digits -/

private theorem grid_point_rounds
    (found : gridPoint? tiesUp units amount (tenPow level) = some point) :
    RoundsTo units point level := by
  unfold gridPoint? at found
  dsimp only at found
  split at found
  · rename_i low high
    split_ifs at found <;> cases found <;> exact beq_iff_eq.mp ‹_›
  · rename_i low high
    cases found
    exact beq_iff_eq.mp low
  · rename_i low high
    cases found
    exact beq_iff_eq.mp high
  · cases found

/-- The search ends at the latest on the finest grid, where the amount itself is a point. -/
theorem coarsest_point_rounds (tiesUp : Bool) (finest : RoundsTo units amount 0) (start : Nat) :
    RoundsTo units (coarsestPoint tiesUp units amount start).1
      (coarsestPoint tiesUp units amount start).2 := by
  induction start with
  | zero =>
    rw [coarsestPoint]
    exact finest
  | succ level ih =>
    unfold coarsestPoint
    split
    · rename_i point found
      exact grid_point_rounds found
    · exact ih

/-- The shortest digits of a magnitude round to it. -/
theorem shortest_digits_round (representable : Representable units) (tiesUp : Bool) :
    ∃ level : Nat, (shortestDigits tiesUp units).2 = level - 1074 ∧
      RoundsTo units (shortestDigits tiesUp units).1 level := by
  have finest : RoundsTo units (units * finestPerUnit) 0 := by
    have one : tenPow 0 = 1 := rfl
    rw [RoundsTo, one, Nat.mul_one]
    exact round_exact finestPerUnit_pos representable.2
  have chosen : RoundsTo units (shortestPoint tiesUp units (units * finestPerUnit)).1
      (shortestPoint tiesUp units (units * finestPerUnit)).2 := by
    rw [shortestPoint]
    exact coarsest_point_rounds tiesUp finest _
  -- The pair is a variable here, since a search on an open amount does not compute.
  have shifted (point : Nat × Nat) (rounds : RoundsTo units point.1 point.2) :
      ∃ level : Nat, (point.map id fun level : Nat => (level : Int) - 1074).2 = level - 1074 ∧
        RoundsTo units (point.map id fun level : Nat => (level : Int) - 1074).1 level :=
    ⟨point.2, rfl, rounds⟩
  rw [shortestDigits]
  exact shifted _ chosen

end JsonQuery
