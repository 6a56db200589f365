import Mathlib
import JsonQuery.Function.Library
import JsonQuery.Proofs.NumberOrder

/-! Whole doubles as integers. A whole double becomes the integer that it is equal to, if that fits
into 64 bits, and so floor and ceiling are exact. At the upper end the test lets in one double too
many: for two to the power 63 the greatest integer stands in, which is one less. -/
namespace JsonQuery

/-- The number stands for the rational number, as an integer exactly if an integer of 64 bits is equal
to it. -/
structure Value.Collapses (v : Value) (q : ℚ) : Prop where
  exact : v.rational? = some q
  integer : (∃ n, v = .int n) ↔ ∃ n : Int, q = n ∧ fitsInt64 n = true

variable {x : Double} {q : ℚ}

/-! ## Whole doubles -/

theorem units_ne_zero : (unitsPerOne : ℚ) ≠ 0 := by
  exact_mod_cast unitsPerOne_pos.ne'

theorem whole_units (divides : unitsPerOne ∣ units) : ∃ k, units = k * unitsPerOne := by
  obtain ⟨k, same⟩ := divides
  exact ⟨k, same.trans (Nat.mul_comm ..)⟩

private theorem two_pow_units (n : Nat) : 2 ^ n * unitsPerOne = 2 ^ (n + 1074) := by
  rw [unitsPerOne_eq, ← twoPow_eq n, ← twoPow_add, twoPow_eq]

/-- Where the steps between doubles are at least one, every double is whole. -/
theorem coarse_whole (representable : Representable units) (coarse : 1074 ≤ units.log2 - 52) :
    unitsPerOne ∣ units := by
  have steps := representable.2
  rw [quantum_eq] at steps
  rw [unitsPerOne_eq, twoPow_eq]
  exact dvd_trans (pow_dvd_pow 2 coarse) steps

theorem double_rational (representable : Representable units) (negative : Bool)
    (ones : units = k * unitsPerOne) :
    (Value.float (.finite negative units representable)).rational? = some (signed negative k : ℚ) := by
  rw [Value.rational?, ones, signed_mul, Int.cast_mul, Int.cast_natCast,
    mul_div_cancel_right₀ _ units_ne_zero]

theorem whole_of_ones (representable : Representable units) (negative : Bool)
    (ones : units = k * unitsPerOne) :
    (Double.finite negative units representable).whole? = some (signed negative k) := by
  rw [Double.whole?, ones, if_pos (Nat.mul_mod_left ..), Nat.mul_div_cancel _ unitsPerOne_pos]

theorem double_magnitude
    (known : (Value.float (.finite negative units representable)).rational? = some q) :
    |q| = (units : ℚ) / unitsPerOne := by
  have positive : (0 : ℚ) < unitsPerOne := by exact_mod_cast unitsPerOne_pos
  have size : |(signed negative units : ℚ)| = units := by
    rw [← Int.cast_abs, Int.abs_eq_natAbs, natAbs_signed, Int.cast_natCast]
  rw [← Option.some.inj known, abs_div, size, abs_of_pos positive]

theorem whole_magnitude {n : Int}
    (known : (Value.float (.finite negative units representable)).rational? = some (n : ℚ)) :
    units = n.natAbs * unitsPerOne ∧ signed negative n.natAbs = n := by
  rw [Value.rational?, Option.some.injEq, div_eq_iff units_ne_zero] at known
  have place : signed negative units = n * unitsPerOne := by exact_mod_cast known
  have size : units = n.natAbs * unitsPerOne := by
    rw [← natAbs_signed negative units, place, Int.natAbs_mul, Int.natAbs_natCast]
  have positive : (unitsPerOne : Int) ≠ 0 := by exact_mod_cast unitsPerOne_pos.ne'
  rw [size, signed_mul] at place
  exact ⟨size, Int.eq_of_mul_eq_mul_right positive place⟩

private theorem whole_iff (known : (Value.float x).rational? = some q) (n : Int) :
    x.whole? = some n ↔ q = n := by
  cases x with
  | finite negative units representable =>
    constructor
    · intro whole
      rw [Double.whole?] at whole
      split_ifs at whole with divides
      have divisible : unitsPerOne ∣ units := Nat.dvd_of_mod_eq_zero divides
      obtain ⟨k, ones⟩ := whole_units divisible
      rw [ones, Nat.mul_div_cancel _ unitsPerOne_pos, Option.some.injEq] at whole
      rw [double_rational representable negative ones, Option.some.injEq] at known
      rw [← known, whole]
    · rintro rfl
      obtain ⟨size, sign⟩ := whole_magnitude known
      rw [whole_of_ones representable negative size, sign]
  | _ => cases known

/-- Doubles from two to the power 52 on are whole. -/
theorem large_whole (known : (Value.float x).rational? = some q) (large : 2 ^ 52 ≤ |q|) :
    ∃ n : Int, q = n := by
  cases x with
  | finite negative units representable =>
    have positive : (0 : ℚ) < unitsPerOne := by exact_mod_cast unitsPerOne_pos
    rw [double_magnitude known, le_div_iff₀ positive] at large
    have bound : 2 ^ 52 * unitsPerOne ≤ units := by exact_mod_cast large
    rw [two_pow_units] at bound
    have bits : 52 + 1074 ≤ units.log2 := by
      by_contra few
      have below : units < 2 ^ (52 + 1074) :=
        Nat.lt_log2_self.trans_le (pow_le_pow_right₀ one_le_two (by omega))
      exact Nat.not_le.mpr below bound
    have divisible := coarse_whole representable (Nat.le_sub_of_add_le' bits)
    obtain ⟨k, ones⟩ := whole_units divisible
    rw [double_rational representable negative ones, Option.some.injEq] at known
    exact ⟨signed negative k, known.symm⟩
  | _ => cases known

/-! ## Integers for doubles -/

private theorem clamp_fits (fits : fitsInt64 n = true) : (clampInt64 n).toInt = n := by
  have bounds := (fits_between n).mp fits
  have least : Int64.minValue.toInt = -9223372036854775808 := by decide
  have greatest : Int64.maxValue.toInt = 9223372036854775807 := by decide
  rw [clampInt64, Int.min_eq_left (by omega), Int.max_eq_right (by omega),
    Int64.toInt_ofInt_of_le (by omega) (by omega)]

private theorem float_no_integer (x : Double) : ¬∃ n, Value.float x = .int n := by
  rintro ⟨n, ⟨⟩⟩

private theorem of_double_collapses (known : (Value.float x).rational? = some q)
    (small : q ≠ 2 ^ 63) :
    (Value.ofDouble x).Collapses q := by
  unfold Value.ofDouble
  cases whole : x.whole? with
  | none =>
    refine ⟨known, iff_of_false (float_no_integer x) ?_⟩
    rintro ⟨n, same, -⟩
    rw [(whole_iff known n).mpr same] at whole
    cases whole
  | some n =>
    have same := (whole_iff known n).mp whole
    have apart : n ≠ 2 ^ 63 := by
      rintro rfl
      exact small (by rw [same]; norm_num)
    dsimp only
    split_ifs with inside
    · have fits : fitsInt64 n = true := by
        rw [fitsInt64, Bool.and_eq_true, decide_eq_true_eq, decide_eq_true_eq]
        omega
      refine ⟨?_, iff_of_true ⟨_, rfl⟩ ⟨n, same, fits⟩⟩
      rw [Value.rational?, clamp_fits fits, same]
    · refine ⟨known, iff_of_false (float_no_integer x) ?_⟩
      rintro ⟨m, other, fits⟩
      have equal : n = m := by exact_mod_cast same.symm.trans other
      rw [fitsInt64, Bool.and_eq_true, decide_eq_true_eq, decide_eq_true_eq] at fits
      omega

private theorem of_double_saturates (known : (Value.float x).rational? = some (2 ^ 63)) :
    Value.ofDouble x = .int Int64.maxValue := by
  have whole : x.whole? = some (2 ^ 63) := (whole_iff known _).mpr (by norm_num)
  rw [Value.ofDouble, whole]
  dsimp only
  rw [if_pos (by decide)]
  rfl

private theorem of_double_collapses_iff (known : (Value.float x).rational? = some q) :
    (Value.ofDouble x).Collapses q ↔ q ≠ 2 ^ 63 := by
  refine ⟨?_, of_double_collapses known⟩
  rintro collapses rfl
  have exact := collapses.exact
  have greatest : Int64.maxValue.toInt = 9223372036854775807 := by decide
  rw [of_double_saturates known, Value.rational?, greatest, Option.some.injEq] at exact
  norm_num at exact

/-! ## Floor and ceiling -/

/-- The ones in a magnitude, one more for a part of one if the magnitude grows. -/
def wholeOnes (grows : Bool) (units : Nat) : Nat :=
  if grows && units % unitsPerOne != 0 then units / unitsPerOne + 1 else units / unitsPerOne

private theorem whole_ones_below (units : Nat) : wholeOnes false units * unitsPerOne ≤ units ∧
    units < wholeOnes false units * unitsPerOne + unitsPerOne := by
  have ones : wholeOnes false units = units / unitsPerOne := rfl
  have parts := Nat.div_add_mod' units unitsPerOne
  have rest := Nat.mod_lt units unitsPerOne_pos
  rw [ones]
  omega

private theorem whole_ones_above (units : Nat) : units ≤ wholeOnes true units * unitsPerOne ∧
    wholeOnes true units * unitsPerOne < units + unitsPerOne := by
  have parts := Nat.div_add_mod' units unitsPerOne
  have rest := Nat.mod_lt units unitsPerOne_pos
  rw [wholeOnes, Bool.true_and]
  split_ifs with part
  · rw [bne_iff_ne] at part
    rw [Nat.add_mul, Nat.one_mul]
    omega
  · rw [bne_iff_ne, not_not] at part
    omega

/-- The ones of a double make a double. -/
theorem whole_ones_representable (representable : Representable units) (grows : Bool) :
    Representable (wholeOnes grows units * unitsPerOne) := by
  by_cases divides : unitsPerOne ∣ units
  · have none : units % unitsPerOne = 0 := Nat.mod_eq_zero_of_dvd divides
    have ones : wholeOnes grows units = units / unitsPerOne := by simp [wholeOnes, none]
    rwa [ones, Nat.div_mul_cancel divides]
  · -- A double with a part of one has few bits before the point.
    have bits : units.log2 - 52 < 1074 := by
      by_contra coarse
      exact divides (coarse_whole representable (Nat.not_lt.mp coarse))
    have bound : units < 2 ^ 52 * unitsPerOne := by
      rw [two_pow_units]
      calc units < 2 ^ (units.log2 + 1) := Nat.lt_log2_self
        _ ≤ 2 ^ (52 + 1074) := pow_le_pow_right₀ one_le_two (by omega)
    have few : wholeOnes grows units ≤ 2 ^ 52 := by
      have ones : units / unitsPerOne < 2 ^ 52 := (Nat.div_lt_iff_lt_mul unitsPerOne_pos).mpr bound
      unfold wholeOnes
      split_ifs <;> omega
    refine ⟨?_, quantum_dvd (few.trans (Nat.pow_le_pow_right (by decide) (by decide))) 1074⟩
    calc wholeOnes grows units * unitsPerOne ≤ twoPow 52 * unitsPerOne := Nat.mul_le_mul_right _ few
      _ = twoPow (52 + 1074) := by rw [unitsPerOne_eq, twoPow_add]
      _ < unitsLimit := by
        rw [unitsLimit_eq]
        exact twoPow_lt (by decide)

private theorem floor_place (i n : Int) :
    ⌊(i : ℚ) / unitsPerOne⌋ = n ↔ n * unitsPerOne ≤ i ∧ i < n * unitsPerOne + unitsPerOne := by
  have positive : (0 : ℚ) < unitsPerOne := by exact_mod_cast unitsPerOne_pos
  rw [Int.floor_eq_iff, le_div_iff₀ positive, div_lt_iff₀ positive, add_mul, one_mul]
  exact_mod_cast Iff.rfl

private theorem ceil_place (i n : Int) :
    ⌈(i : ℚ) / unitsPerOne⌉ = n ↔ i ≤ n * unitsPerOne ∧ n * unitsPerOne < i + unitsPerOne := by
  have positive : (0 : ℚ) < unitsPerOne := by exact_mod_cast unitsPerOne_pos
  rw [Int.ceil_eq_iff, lt_div_iff₀ positive, div_le_iff₀ positive, sub_mul, one_mul, sub_lt_iff_lt_add,
    and_comm]
  exact_mod_cast Iff.rfl

private theorem floor_rational (known : (Value.float x).rational? = some q) :
    (Value.float x.floor).rational? = some (⌊q⌋ : ℚ) := by
  cases x with
  | finite negative units representable =>
    have whole := whole_ones_representable representable negative
    have same : Double.floor (.finite negative units representable) =
        .finite negative (wholeOnes negative units * unitsPerOne) whole :=
      Double.of_units_finite whole negative
    cases known
    rw [same, double_rational whole _ rfl, Option.some.injEq, Int.cast_inj, eq_comm, floor_place]
    cases negative with
    | false =>
      have near := whole_ones_below units
      simp only [signed, Bool.false_eq_true, if_false]
      exact_mod_cast near
    | true =>
      have near := whole_ones_above units
      simp only [signed, if_true, neg_mul]
      omega
  | _ => cases known

private theorem ceil_rational (known : (Value.float x).rational? = some q) :
    (Value.float x.ceil).rational? = some (⌈q⌉ : ℚ) := by
  cases x with
  | finite negative units representable =>
    have whole := whole_ones_representable representable (!negative)
    have same : Double.ceil (.finite negative units representable) =
        .finite negative (wholeOnes (!negative) units * unitsPerOne) whole :=
      Double.of_units_finite whole negative
    cases known
    rw [same, double_rational whole _ rfl, Option.some.injEq, Int.cast_inj, eq_comm, ceil_place]
    cases negative with
    | false =>
      have near := whole_ones_above units
      simp only [signed, Bool.false_eq_true, if_false]
      exact_mod_cast near
    | true =>
      have near := whole_ones_below units
      simp only [signed, Bool.not_true, if_true, neg_mul]
      omega
  | _ => cases known

/-- Around two to the power 63 there are only whole doubles. -/
theorem whole_at_limit (known : (Value.float x).rational? = some q) :
    ((⌊q⌋ : ℚ) = 2 ^ 63 ↔ q = 2 ^ 63) ∧ ((⌈q⌉ : ℚ) = 2 ^ 63 ↔ q = 2 ^ 63) := by
  have whole (near : 2 ^ 63 - 1 < q) : ∃ n : Int, q = n :=
    large_whole known (le_trans (by linarith) (le_abs_self q))
  refine ⟨⟨fun floor => ?_, ?_⟩, ⟨fun ceil => ?_, ?_⟩⟩
  · obtain ⟨n, rfl⟩ := whole (by linarith [Int.floor_le q])
    rwa [Int.floor_intCast] at floor
  · rintro rfl
    norm_num
  · obtain ⟨n, rfl⟩ := whole (by linarith [Int.ceil_lt_add_one q])
    rwa [Int.ceil_intCast] at ceil
  · rintro rfl
    norm_num

/-- A double becomes an integer exactly if an integer of 64 bits is equal to it, and floor and ceiling
are the exact ones, unless the double is two to the power 63. In its place stands the greatest
integer. -/
theorem Value.of_double_exact_iff (known : (Value.float x).rational? = some q) :
    ((ofDouble x).Collapses q ↔ q ≠ 2 ^ 63) ∧
      ((Library.floor (.float x)).Collapses ⌊q⌋ ↔ q ≠ 2 ^ 63) ∧
      ((Library.ceil (.float x)).Collapses ⌈q⌉ ↔ q ≠ 2 ^ 63) ∧
      (q = 2 ^ 63 → ofDouble x = .int Int64.maxValue ∧
        Library.floor (.float x) = .int Int64.maxValue ∧
        Library.ceil (.float x) = .int Int64.maxValue) := by
  have floor := floor_rational known
  have ceil := ceil_rational known
  obtain ⟨floorLimit, ceilLimit⟩ := whole_at_limit known
  refine ⟨of_double_collapses_iff known, ?_, ?_, fun limit => ?_⟩
  · rw [Library.floor, Library.rounded, of_double_collapses_iff floor, ne_eq, floorLimit]
  · rw [Library.ceil, Library.rounded, of_double_collapses_iff ceil, ne_eq, ceilLimit]
  · rw [floorLimit.mpr limit] at floor
    rw [ceilLimit.mpr limit] at ceil
    rw [limit] at known
    exact ⟨of_double_saturates known, of_double_saturates floor, of_double_saturates ceil⟩

/-- The greatest double below two to the power 63 is kept, as an integer. -/
theorem Value.of_double_exact_iff_below :
    let x : Double := .ofInt 9223372036854774784
    (Value.float x).rational? = some 9223372036854774784 ∧
      (ofDouble x).Collapses 9223372036854774784 := by
  intro x
  have known : (Value.float x).rational? = some 9223372036854774784 := by decide +kernel
  exact ⟨known, (of_double_exact_iff known).1.mpr (by norm_num)⟩

/-- Two to the power 63 is a double, and becomes an integer that is one less. -/
theorem Value.of_double_saturates_limit :
    let x : Double := .ofInt 9223372036854775808
    (Value.float x).rational? = some 9223372036854775808 ∧
      (ofDouble x).rational? = some 9223372036854775807 ∧
      (Library.floor (.float x)).rational? = some 9223372036854775807 ∧
      (Library.ceil (.float x)).rational? = some 9223372036854775807 := by
  decide +kernel

end JsonQuery
