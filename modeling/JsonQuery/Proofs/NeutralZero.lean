import Mathlib
import JsonQuery.Proofs.DecimalEntry
import JsonQuery.Proofs.FloatText
import JsonQuery.Proofs.IntegerArithmetic

/-! Zero as an operand. Even a sum with zero passes through decimals, and so does the sum of a single
number: what comes of it is what the passage leaves of the number. Integers, whole doubles and short
decimal fractions are not changed by it, and the smallest doubles are lost. -/
namespace JsonQuery

/-! ## Exact steps -/

/-- The double is as many units, and has no sign. -/
def Double.Holds (x : Double) (units : Nat) : Prop :=
  ∃ representable, x = .finite false units representable

section Steps

variable {x y : Double} {n m : Nat}

/-- A step is exact if a double can hold its result. -/
theorem nearest_holds (positive : 0 < d) (representable : Representable units) :
    (Double.nearestUnits false (units * d) d).Holds units := by
  refine ⟨representable, ?_⟩
  rw [Double.nearestUnits, round_exact positive representable.2, Double.of_units_finite representable]

private theorem own_holds (representable : Representable units) :
    (Double.nearestUnits false units 1).Holds units := by
  refine ⟨representable, ?_⟩
  rw [Double.nearestUnits, round_own representable.2, Double.of_units_finite representable]

private theorem few_bits_representable (few : n ≤ twoPow 53) (range : e ≤ 2044) :
    Representable (n * twoPow e) := by
  refine ⟨?_, quantum_dvd few e⟩
  calc n * twoPow e ≤ twoPow 53 * twoPow e := Nat.mul_le_mul_right _ few
    _ = twoPow (53 + e) := (twoPow_add ..).symm
    _ < unitsLimit := by
      rw [unitsLimit_eq]
      exact twoPow_lt (by omega)

private theorem int_holds (representable : Representable (n * unitsPerOne)) :
    (Double.ofInt n).Holds (n * unitsPerOne) := by
  have positive : decide ((n : Int) < 0) = false := decide_eq_false (by omega)
  rw [Double.ofInt, Double.nearest, positive, Int.natAbs_natCast]
  exact own_holds representable

private theorem add_holds (first : x.Holds n) (second : y.Holds m)
    (representable : Representable units)
    (sum : n + m = units) : (x.add y).Holds units := by
  obtain ⟨_, rfl⟩ := first
  obtain ⟨_, rfl⟩ := second
  have total : signed false n + signed false m = (units : Int) := by
    rw [← sum, Int.natCast_add]
    rfl
  have positive : decide ((units : Int) < 0) = false := decide_eq_false (by omega)
  rw [Double.add, total, positive, Bool.and_false, Bool.or_false, Int.natAbs_natCast]
  exact own_holds representable

private theorem mul_holds (first : x.Holds n) (second : y.Holds m)
    (representable : Representable units)
    (product : n * m = units * unitsPerOne) : (x.mul y).Holds units := by
  obtain ⟨_, rfl⟩ := first
  obtain ⟨_, rfl⟩ := second
  rw [Double.mul, product]
  exact nearest_holds unitsPerOne_pos representable

private theorem div_holds (first : x.Holds n) (second : y.Holds m) (positive : 0 < m)
    (representable : Representable units) (quotient : n * unitsPerOne = units * m) :
    (x.div y).Holds units := by
  obtain ⟨_, rfl⟩ := first
  obtain ⟨_, rfl⟩ := second
  rw [Double.div, if_neg positive.ne', quotient]
  exact nearest_holds positive representable

private theorem round_holds (whole : x.Holds (n * unitsPerOne)) :
    x.round.Holds (n * unitsPerOne) := by
  obtain ⟨representable, rfl⟩ := whole
  have ones : (2 * (n * unitsPerOne) + unitsPerOne) / (2 * unitsPerOne) = n := by
    have positive := unitsPerOne_pos
    have parts : 2 * (n * unitsPerOne) + unitsPerOne = unitsPerOne + 2 * unitsPerOne * n := by ring
    rw [parts, Nat.add_mul_div_left _ _ (by omega), Nat.div_eq_of_lt (by omega), Nat.zero_add]
  rw [Double.round, ones, Double.of_units_finite representable]
  exact ⟨representable, rfl⟩

private theorem ten_power_exact : ∀ p : Fin 23, (Double.ofInt 10).power p = .ofInt (tenPow p) := by
  decide +kernel

private theorem ten_power_holds (few : p ≤ 22) :
    (Double.ofInt (tenPow p)).Holds (tenPow p * unitsPerOne) ∧
      ((Double.ofInt 10).power p).Holds (tenPow p * unitsPerOne) := by
  have fives : fivePow p ≤ twoPow 53 := by
    calc fivePow p ≤ 5 ^ 22 := Nat.pow_le_pow_right (by decide) few
      _ ≤ twoPow 53 := by decide
  have representable : Representable (tenPow p * unitsPerOne) := by
    rw [tenPow_parts, Nat.mul_comm (twoPow p), Nat.mul_assoc, unitsPerOne_eq, ← twoPow_add]
    exact few_bits_representable fives (by omega)
  have holds := int_holds representable
  have power := ten_power_exact ⟨p, Nat.lt_succ_of_le few⟩
  exact ⟨holds, by rwa [power]⟩

end Steps

/-! ## Decimals that leave exactly -/

private theorem signed_sign (positive : 0 < m) (negative : Bool) :
    decide (signed negative m < 0) = negative := by
  cases negative with
  | false => exact decide_eq_false (by simp [signed])
  | true => exact decide_eq_true (by simp only [signed, if_true]; omega)

private theorem fraction_parts (a p : Nat) : a * 5 ^ p / tenPow p = a / twoPow p ∧
    a * 5 ^ p % tenPow p = a % twoPow p * 5 ^ p := by
  have ten : tenPow p = twoPow p * 5 ^ p := tenPow_parts p
  have fives : 0 < 5 ^ p := Nat.pow_pos (by decide)
  rw [ten, Nat.mul_div_mul_right _ _ fives, Nat.mul_mod_mul_right]
  exact ⟨rfl, rfl⟩

private theorem odd_part (odd : a % 2 = 1) (part : 0 < p) : a % twoPow p * 5 ^ p ≠ 0 := by
  intro none
  have fives : 5 ^ p ≠ 0 := (Nat.pow_pos (by decide)).ne'
  have divisible := Nat.dvd_of_mod_eq_zero ((Nat.mul_eq_zero.mp none).resolve_right fives)
  have even : 2 ∣ a := (dvd_pow_self 2 part.ne').trans divisible
  omega

/-- Every step from the digits of a short decimal fraction to its double is exact. -/
theorem fraction_steps (representable : Representable units)
    (fraction : Decimal.ShortFraction units a s p) :
    ((((Double.ofInt ↑(a / twoPow p)).add
      ((Double.ofInt ↑(a % twoPow p * 5 ^ p)).div (.ofInt (tenPow p)))).mul
        ((Double.ofInt 10).power p)).round.div ((Double.ofInt 10).power p)).Holds units := by
  obtain ⟨precision, factor⟩ := ten_power_holds fraction.few
  obtain ⟨same, odd, places, part, short⟩ := fraction
  have ten : tenPow p = twoPow p * 5 ^ p := tenPow_parts p
  have ones : unitsPerOne = twoPow s * twoPow p := by rw [unitsPerOne_eq, ← places, twoPow_add]
  have fives : 0 < 5 ^ p := Nat.pow_pos (by decide)
  -- No number on the way has more bits than the coefficient, beside its power of two.
  have bits {n : Nat} (few : n ≤ a * 5 ^ p) : n ≤ twoPow 53 := by
    have more : twoPow 52 ≤ twoPow 53 := by decide
    exact few.trans (short.le.trans more)
  have whole {n : Nat} (few : n ≤ a * 5 ^ p) : Representable (n * unitsPerOne) :=
    few_bits_representable (bits few) (by decide)
  have few : a ≤ a * 5 ^ p := Nat.le_mul_of_pos_right _ fives
  have first := int_holds (whole ((Nat.div_le_self a (twoPow p)).trans few))
  have second := int_holds (whole (Nat.mul_le_mul_right (5 ^ p) (Nat.mod_le a (twoPow p))))
  have positive : 0 < tenPow p * unitsPerOne := Nat.mul_pos (tenPow_pos p) unitsPerOne_pos
  have quotient := div_holds second precision positive
    (few_bits_representable (bits ((Nat.mod_le a (twoPow p)).trans few)) (show s ≤ 2044 by omega))
    (by rw [ten, ones]; ring)
  have parts : a / twoPow p * unitsPerOne + a % twoPow p * twoPow s = units := by
    calc a / twoPow p * unitsPerOne + a % twoPow p * twoPow s
        = (twoPow p * (a / twoPow p) + a % twoPow p) * twoPow s := by rw [ones]; ring
      _ = units := by rw [Nat.div_add_mod, same]
  have sum := add_holds first quotient representable parts
  have scaled : units * (tenPow p * unitsPerOne) = a * 5 ^ p * unitsPerOne * unitsPerOne := by
    rw [same, ten, ones]
    ring
  have digits := mul_holds sum factor (whole (Nat.le_refl _)) scaled
  exact div_holds (round_holds digits) factor positive representable scaled.symm

/-- A short decimal fraction leaves as the double that it is. -/
theorem fraction_leaves (representable : Representable units)
    (fraction : Decimal.ShortFraction units a s p) (negative : Bool) :
    (Decimal.mk (signed negative (a * 5 ^ p)) p).toDouble = .finite negative units representable := by
  obtain ⟨_, magnitude⟩ := fraction_steps representable fraction
  obtain ⟨whole, rest⟩ := fraction_parts a p
  have some := odd_part fraction.odd fraction.part
  have sign : decide (signed negative (a * 5 ^ p) < 0) = negative :=
    signed_sign (Nat.mul_pos fraction.positive (Nat.pow_pos (by decide))) negative
  simp only [Decimal.toDouble, natAbs_signed, whole, rest, if_neg some, magnitude, sign]
  cases negative <;> rfl

/-- A whole decimal leaves as its ones do. -/
theorem to_double_ones (d : Decimal) (divisible : d.coefficient % tenPow d.scale = 0) :
    d.toDouble = (Decimal.mk (d.coefficient / tenPow d.scale) 0).toDouble := by
  have positive : (0 : Int) < tenPow d.scale := by exact_mod_cast tenPow_pos d.scale
  obtain ⟨k, ones⟩ := Int.dvd_of_emod_eq_zero divisible
  rw [Int.mul_comm] at ones
  have size : d.coefficient.natAbs = k.natAbs * tenPow d.scale := by
    rw [ones, Int.natAbs_mul, Int.natAbs_natCast]
  have quotient : d.coefficient / tenPow d.scale = k := by
    rw [ones, Int.mul_ediv_cancel _ positive.ne']
  have sign : decide (d.coefficient < 0) = decide (k < 0) := by
    rw [ones]
    exact decide_eq_decide.mpr (scaled_neg_iff positive k)
  have one : tenPow 0 = 1 := rfl
  simp only [Decimal.toDouble, quotient, sign, size, one, Nat.mul_div_cancel _ (tenPow_pos _),
    Nat.mul_mod_left, Nat.div_one, Nat.mod_one, if_true]

namespace Value

/-- What is left of a number that has passed through a decimal. A number that no decimal has room for
stays as it is. -/
def passed (v : Value) : Value :=
  match v.toDecimal? with
  | some d => ofDecimal d
  | none => v

variable {v : Value} {x : Double} {q : ℚ} {d : Decimal} {n : Int}

/-! ## Sums with zero -/

private theorem decimal_add_zero (below : d.coefficient.natAbs < Decimal.limit) :
    d.add? (.ofInt 0) = some d := by
  have one : divNearestEven d.coefficient.natAbs (tenPow 0) = d.coefficient.natAbs :=
    div_nearest_own _
  have scaled : d.coefficient * tenPow 0 + 0 * tenPow d.scale = d.coefficient := by simp [tenPow]
  simp only [Decimal.add?, Decimal.ofInt, Nat.max_zero, Nat.sub_self, Nat.sub_zero, scaled,
    Decimal.fit?]
  rw [List.range_succ_eq_map, List.findSome?_cons, one]
  simp [below, signed_natAbs]

private theorem to_decimal_below (known : v.toDecimal? = some d) :
    d.coefficient.natAbs < Decimal.limit := by
  cases v with
  | int n =>
    cases known
    have range := int64_range n
    rw [decimal_limit_eq]
    dsimp only [Decimal.ofInt]
    omega
  | float x => exact Decimal.of_double_below known
  | _ => cases known

private theorem double_add_zero (representable : Representable units) (nonzero : units ≠ 0)
    (negative sign : Bool) (none : Representable 0) :
    (Double.finite negative units representable).add (.finite sign 0 none) =
      .finite negative units representable := by
  have zero : signed sign 0 = 0 := by cases sign <;> rfl
  have some : signed negative units ≠ 0 := by
    rw [← Int.natAbs_ne_zero, natAbs_signed]
    exact nonzero
  have below := signed_sign (Nat.pos_of_ne_zero nonzero) negative
  rw [Double.add, zero, Int.add_zero, below, decide_eq_false some, Bool.false_and, Bool.false_and,
    Bool.or_false, natAbs_signed, Double.nearestUnits, round_own representable.2,
    Double.of_units_finite representable]

/-- A double that is too large for decimals is whole. -/
theorem wide_whole (representable : Representable units)
    (wide : Decimal.ofDouble? (.finite negative units representable) = none) :
    ∃ k, units = k * unitsPerOne ∧ Decimal.limit ≤ k := by
  by_cases coarse : 1074 ≤ units.log2 - 52
  · obtain ⟨k, ones⟩ := whole_units (coarse_whole representable coarse)
    rw [Decimal.of_double_integer representable ones] at wide
    refine ⟨k, ones, ?_⟩
    by_contra room
    rw [if_pos (Nat.not_le.mp room)] at wide
    cases wide
  · rw [Decimal.of_double_fine representable (Nat.not_le.mp coarse)] at wide
    cases wide

/-- A double that is too large for decimals has no integer either. -/
theorem wide_no_integer (representable : Representable units)
    (ones : units = k * unitsPerOne) (large : Decimal.limit ≤ k) :
    ofDouble (.finite negative units representable) = .float (.finite negative units representable) := by
  rw [decimal_limit_eq] at large
  have size := natAbs_signed negative k
  rw [ofDouble, whole_of_ones representable negative ones]
  dsimp only
  rw [if_neg (by omega)]

/-- An operation that leaves a decimal and a double alone for zero has no effect but the passage. -/
theorem arithmetic_zero {decimals : Decimal → Decimal → Option Decimal}
    {doubles : Double → Double → Double} (known : v.rational? = some q)
    (exactly : ∀ d : Decimal, d.coefficient.natAbs < Decimal.limit → decimals d (.ofInt 0) = some d)
    (nearly : ∀ negative units representable, units ≠ 0 →
      doubles (.finite negative units representable) (.ofInt 0) =
        .finite negative units representable) :
    arithmetic decimals doubles v (.int 0) = some v.passed := by
  have zero : (Value.int 0).toDecimal? = some (.ofInt 0) := rfl
  cases decimal : v.toDecimal? with
  | some d =>
    rw [arithmetic, passed, decimal, zero, Option.bind_eq_bind, Option.bind_some, Option.bind_some,
      exactly d (to_decimal_below decimal)]
  | none =>
    cases v with
    | float x =>
      cases x with
      | finite negative units representable =>
        obtain ⟨k, ones, large⟩ := wide_whole representable decimal
        have positive : 0 < k := (twoPow_pos 96).trans_le large
        have nonzero : units ≠ 0 := by
          rw [ones]
          exact Nat.mul_ne_zero positive.ne' unitsPerOne_pos.ne'
        have double : (Value.int 0).toDouble? = some (.ofInt 0) := rfl
        rw [arithmetic, passed, decimal, double]
        simp only [toDouble?, Option.bind_eq_bind, Option.bind_none, Option.bind_some,
          nearly negative units representable nonzero, wide_no_integer representable ones large]
        rfl
      | _ => cases known
    | int n => cases decimal
    | _ => cases known

private theorem zero_holds : (Double.ofInt 0).Holds 0 := by
  have representable : Representable 0 := ⟨twoPow_pos 2098, Nat.dvd_zero _⟩
  have exact := int_holds (n := 0) (by rwa [Nat.zero_mul])
  rwa [Nat.zero_mul] at exact

/-- A sum with zero is what the passage leaves of the number, and so are the difference and the sum of
the number alone. -/
theorem zero_passes (known : v.rational? = some q) :
    v.add? (.int 0) = some v.passed ∧ (Value.int 0).add? v = some v.passed ∧
      v.sub? (.int 0) = some v.passed ∧ sum [v] = v.passed := by
  obtain ⟨none, zero⟩ := zero_holds
  have behind : v.add? (.int 0) = some v.passed :=
    arithmetic_zero known (fun _ => decimal_add_zero) fun negative units representable nonzero => by
      rw [zero, double_add_zero representable nonzero]
  have front : (Value.int 0).add? v = some v.passed := by
    rw [← behind]
    exact arithmetic_comm decimal_add_comm double_add_comm _ _
  have taken : v.sub? (.int 0) = some v.passed :=
    arithmetic_zero known (fun _ => decimal_add_zero) fun negative units representable nonzero => by
      rw [Double.sub, zero, Double.neg, double_add_zero representable nonzero]
  refine ⟨behind, front, taken, ?_⟩
  rw [sum, List.foldl_cons, List.foldl_nil, front, Option.getD_some]

/-! ## Numbers that are kept -/

private theorem passed_integer (n : Int64) : (Value.int n).passed = .int n := by
  have decimal : (Value.int n).toDecimal? = some ⟨n.toInt, 0⟩ := rfl
  rw [passed, decimal, ← of_decimal_integer n]

private theorem whole_rational (whole : x.IsWhole n) : (Value.float x).rational? = some
    (n : ℚ) := by
  obtain ⟨representable, rfl⟩ := whole
  rw [double_rational representable _ rfl, signed_natAbs]

/-- An integer that a double is equal to is its own nearest double. -/
theorem nearest_whole (representable : Representable (n.natAbs * unitsPerOne)) :
    nearestRank n = n := by
  have exact := round_own representable.2
  rw [unitsPerOne_eq, round_whole] at exact
  rw [nearestRank, Nat.eq_of_mul_eq_mul_right (twoPow_pos 1074) exact, signed_natAbs]

private theorem settles_rational (settles : v.Settles n) (exact : nearestRank n = n) :
    v.rational? = some (n : ℚ) := by
  unfold Settles at settles
  split_ifs at settles
  · obtain ⟨m, rfl, same⟩ := settles
    rw [rational?, same]
  · obtain ⟨x, rfl, whole⟩ := settles
    rw [exact] at whole
    exact whole_rational whole

/-- Whole numbers are kept, though not always as doubles. -/
theorem passed_whole (known : v.rational? = some (n : ℚ)) : v.passed.rational? = some (n : ℚ) := by
  cases v with
  | int m => rwa [passed_integer]
  | float x =>
    cases x with
    | finite negative units representable =>
      obtain ⟨ones, sign⟩ := whole_magnitude known
      have decimal : (Value.float (.finite negative units representable)).toDecimal? =
          if n.natAbs < Decimal.limit then some ⟨n, 0⟩ else none := by
        rw [toDecimal?, Decimal.of_double_integer representable ones, sign]
      rw [ones] at representable
      rw [passed, decimal]
      split_ifs with room
      · have range : n.natAbs ≤ 2 ^ 117 := by
          rw [decimal_limit_eq] at room
          omega
        exact settles_rational (of_decimal_settles range) (nearest_whole representable)
      · exact known
    | _ => cases known
  | _ => cases known

/-- A short decimal fraction comes out as the double that it was. -/
theorem passed_fraction (representable : Representable units)
    (fraction : Decimal.ShortFraction units a s p) (negative : Bool) :
    (Value.float (.finite negative units representable)).passed =
      .float (.finite negative units representable) := by
  have decimal : (Value.float (.finite negative units representable)).toDecimal? =
      some ⟨signed negative (a * 5 ^ p), p⟩ :=
    Decimal.of_double_fraction representable fraction negative
  have rest : ¬signed negative (a * 5 ^ p) % tenPow p = 0 := by
    intro whole
    have divisible := Int.natAbs_dvd_natAbs.mpr (Int.dvd_of_emod_eq_zero whole)
    rw [natAbs_signed, Int.natAbs_natCast, tenPow_parts] at divisible
    have even : 2 ∣ a * 5 ^ p := ((dvd_pow_self 2 fraction.part.ne').mul_right _).trans divisible
    have product := Decimal.odd_fives fraction.odd p
    omega
  rw [passed, decimal]
  dsimp only
  rw [ofDecimal, Decimal.toInt64?]
  dsimp only
  rw [if_neg rest, fraction_leaves representable fraction]

/-- A decimal has a place for each place of the binary fraction that it is equal to. -/
theorem fives_le (odd : a % 2 = 1) (same : a * 10 ^ places = c * 2 ^ p) : a * 5 ^ p ≤ c := by
  have enough : p ≤ places := by
    by_contra few
    have more : 2 ^ (places + 1) ∣ c * 2 ^ p := (pow_dvd_pow 2 (Nat.not_le.mp few)).mul_left c
    have tens : a * 10 ^ places = a * 5 ^ places * 2 ^ places := by
      rw [Nat.mul_assoc, ← Nat.mul_pow]
    rw [← same, tens, pow_succ, Nat.mul_comm] at more
    have even : 2 ∣ a * 5 ^ places := Nat.dvd_of_mul_dvd_mul_right (Nat.two_pow_pos places) more
    have product := Decimal.odd_fives odd places
    omega
  obtain ⟨e, rfl⟩ := Nat.exists_eq_add_of_le enough
  have tens : a * 10 ^ (p + e) = a * 5 ^ p * 10 ^ e * 2 ^ p := by
    rw [pow_add, show 10 = 5 * 2 from rfl, Nat.mul_pow 5 2 p]
    ring
  rw [tens] at same
  rw [← Nat.eq_of_mul_eq_mul_right (Nat.two_pow_pos p) same]
  exact Nat.le_mul_of_pos_right _ (Nat.pow_pos (by decide))

private theorem decimal_units {c : Int}
    (known : (Value.float (.finite negative units representable)).rational? = some q)
    (decimal : q * 10 ^ digits = c) : units * 10 ^ digits = c.natAbs * unitsPerOne := by
  rw [← Option.some.inj known, div_mul_eq_mul_div, div_eq_iff units_ne_zero] at decimal
  have places : signed negative units * 10 ^ digits = c * unitsPerOne := by exact_mod_cast decimal
  have sizes := congrArg Int.natAbs places
  rwa [Int.natAbs_mul, Int.natAbs_mul, natAbs_signed, Int.natAbs_natCast, Int.natAbs_pow] at sizes

/-- A double with a part of one is a short fraction if it is a decimal with a short coefficient,
however many places that has. -/
theorem short_fraction (part : ∀ k, units ≠ k * unitsPerOne)
    (size : units * 10 ^ digits = c * unitsPerOne) (short : c < twoPow 52) :
    ∃ a s p, Decimal.ShortFraction units a s p := by
  have nonzero : units ≠ 0 := by
    have zero := part 0
    rwa [Nat.zero_mul] at zero
  obtain ⟨s, a, oddly, power⟩ := Nat.exists_eq_two_pow_mul_odd nonzero
  have odd := Nat.odd_iff.mp oddly
  have same : units = a * twoPow s := by rw [power, Nat.mul_comm, twoPow_eq]
  have fine : s < 1074 := by
    by_contra coarse
    refine part (a * twoPow (s - 1074)) ?_
    rw [same, unitsPerOne_eq, Nat.mul_assoc, ← twoPow_add, Nat.sub_add_cancel (Nat.not_lt.mp coarse)]
  have places : s + (1074 - s) = 1074 := by omega
  have tens : a * 10 ^ digits = c * 2 ^ (1074 - s) := by
    rw [same, unitsPerOne_eq, ← places, twoPow_add] at size
    refine Nat.eq_of_mul_eq_mul_right (twoPow_pos s) ?_
    calc a * 10 ^ digits * twoPow s = a * twoPow s * 10 ^ digits := Nat.mul_right_comm ..
      _ = c * (twoPow s * twoPow (1074 - s)) := size
      _ = c * 2 ^ (1074 - s) * twoPow s := by rw [twoPow_eq (1074 - s)]; ring
  exact ⟨a, s, 1074 - s, same, odd, places, by omega, (fives_le odd tens).trans_lt short⟩

/-- A number that is a decimal with a coefficient of at most 52 bits is kept. -/
theorem passed_short {c : Int} (known : v.rational? = some q) (decimal : q * 10 ^ digits = c)
    (short : |c| < 2 ^ 52) : v.passed.rational? = some q := by
  by_cases whole : ∃ n : Int, q = n
  · obtain ⟨n, rfl⟩ := whole
    exact passed_whole known
  cases v with
  | int n => exact absurd ⟨n.toInt, (Option.some.inj known).symm⟩ whole
  | float x =>
    cases x with
    | finite negative units representable =>
      have part (k : Nat) : units ≠ k * unitsPerOne := by
        intro ones
        have value := known
        rw [double_rational representable negative ones, Option.some.injEq] at value
        exact whole ⟨_, value.symm⟩
      have bits : c.natAbs < twoPow 52 := by
        rw [Int.abs_eq_natAbs] at short
        exact_mod_cast short
      obtain ⟨a, s, p, fraction⟩ := short_fraction part (decimal_units known decimal) bits
      rwa [passed_fraction representable fraction]
    | _ => cases known
  | _ => cases known

/-- A number that is not whole is kept if its decimal leaves as it. -/
theorem passed_leaves (part : ∀ n : Int, q ≠ n) (decimal : v.toDecimal? = some d) :
    v.passed.rational? = some q ↔ (Value.float d.toDouble).rational? = some q := by
  have entered : v.passed = ofDecimal d := by rw [passed, decimal]
  rw [entered, ofDecimal, Decimal.toInt64?]
  split_ifs with divisible
  · have range : (d.coefficient / tenPow d.scale).natAbs ≤ 2 ^ 117 := by
      have below := to_decimal_below decimal
      have least := Int.natAbs_ediv_le_natAbs d.coefficient (tenPow d.scale)
      rw [decimal_limit_eq] at below
      omega
    have leaves := whole_rational (whole_to_double range)
    rw [← to_double_ones d divisible] at leaves
    have apart (n : Int) : some (n : ℚ) ≠ some q := fun same => part n (Option.some.inj same).symm
    have outside := apart (nearestRank (d.coefficient / tenPow d.scale))
    rw [← leaves] at outside
    cases integer : JsonQuery.toInt64? (d.coefficient / tenPow d.scale) with
    | none => rfl
    | some n => exact iff_of_false (apart n.toInt) outside
  · rfl

/-- A number that is not whole has a decimal. -/
theorem fraction_decimal (known : v.rational? = some q) (part : ∀ n : Int, q ≠ n) :
    ∃ d, v.toDecimal? = some d := by
  cases v with
  | int n => exact absurd (Option.some.inj known).symm (part n.toInt)
  | float x =>
    cases x with
    | finite negative units representable =>
      rw [← Option.ne_none_iff_exists']
      intro wide
      obtain ⟨k, ones, -⟩ := wide_whole representable wide
      rw [double_rational representable negative ones, Option.some.injEq] at known
      exact part _ known.symm
    | _ => cases known
  | _ => cases known

/-! ## Numbers that are lost -/

/-- Below four ninths of the last place of decimals nothing is left. -/
theorem passed_tiny (known : v.rational? = some q) (tiny : |q| < 4 / (9 * 10 ^ Decimal.maxScale)) :
    v.passed = .int 0 := by
  cases v with
  | int n =>
    have same : (n.toInt : ℚ) = q := Option.some.inj known
    have below : |(n.toInt : ℚ)| < 1 := by
      rw [same]
      exact tiny.trans (by norm_num [Decimal.maxScale])
    have zero : n.toInt = 0 := Int.abs_lt_one_iff.mp (by exact_mod_cast below)
    have nothing : n = 0 := Int64.toInt_inj.mp zero
    rw [passed_integer, nothing]
  | float x =>
    cases x with
    | finite negative units representable =>
      have positive : (0 : ℚ) < unitsPerOne := by exact_mod_cast unitsPerOne_pos
      have small : 9 * units * 10 ^ Decimal.maxScale < 4 * unitsPerOne := by
        rw [double_magnitude known, div_lt_div_iff₀ positive (by positivity)] at tiny
        have whole : units * (9 * 10 ^ Decimal.maxScale) < 4 * unitsPerOne := by exact_mod_cast tiny
        linarith
      have decimal : (Value.float (.finite negative units representable)).toDecimal? = some ⟨0, 0⟩ :=
        Decimal.of_double_tiny representable small negative
      rw [passed, decimal]
      rfl
    | _ => cases known
  | _ => cases known

/-- A sum with zero, and the sum of one number, is what the passage through a decimal leaves of the
number. It is the number itself if that is whole, or a decimal with a coefficient of at most 52 bits,
and otherwise if and only if the decimal that it has entered as leaves as the same double. Of the
smallest numbers nothing is left. -/
theorem zero_neutral_iff (known : v.rational? = some q) :
    (v.add? (.int 0) = some v.passed ∧ (Value.int 0).add? v = some v.passed ∧
        v.sub? (.int 0) = some v.passed ∧ sum [v] = v.passed) ∧
      (v.passed.rational? = some q ↔ (∃ n : Int, q = n) ∨
        ∃ d, v.toDecimal? = some d ∧ (Value.float d.toDouble).rational? = some q) ∧
      (∀ (places : Nat) (c : Int), q * 10 ^ places = c → |c| < 2 ^ 52 →
        v.passed.rational? = some q) ∧
      (|q| < 4 / (9 * 10 ^ Decimal.maxScale) → v.passed = .int 0) := by
  refine ⟨zero_passes known, ?_, fun places c => passed_short known, passed_tiny known⟩
  by_cases whole : ∃ n : Int, q = n
  · obtain ⟨n, rfl⟩ := whole
    exact iff_of_true (passed_whole known) (.inl ⟨n, rfl⟩)
  · rw [or_iff_right whole]
    have part : ∀ n : Int, q ≠ n := not_exists.mp whole
    obtain ⟨d, decimal⟩ := fraction_decimal known part
    rw [passed_leaves part decimal]
    constructor
    · intro leaves
      exact ⟨d, decimal, leaves⟩
    · rintro ⟨e, other, leaves⟩
      rw [decimal, Option.some.injEq] at other
      rwa [other]

/-- Three eighths are kept, and of two to the power -100 nothing is left. -/
theorem zero_neutral_iff_short :
    let x : Value := .float (.nearest false 3 8)
    let y : Value := .float (.ofUnits false (twoPow 974))
    x.rational? = some (3 / 8) ∧ x.add? (.int 0) = some x.passed ∧
      x.passed.rational? = some (3 / 8) ∧
      y.rational? = some (1 / 2 ^ 100) ∧ sum [y] = .int 0 := by
  intro x y
  have first : x.rational? = some (3 / 8) := by decide +kernel
  have second : y.rational? = some (1 / 2 ^ 100) := by decide +kernel
  obtain ⟨⟨sum, -⟩, -, short, -⟩ := zero_neutral_iff first
  obtain ⟨⟨-, -, -, alone⟩, -, -, tiny⟩ := zero_neutral_iff second
  refine ⟨first, sum, short 3 375 (by norm_num) (by norm_num), second, ?_⟩
  rw [alone, tiny (by norm_num [Decimal.maxScale])]

/-- The decimal of a fraction of seven digits is not the fraction: where digits are dropped one by one,
a rest of less than a half may be rounded up. -/
theorem sum_moves_fraction :
    let x : Value := .float (.nearest false 4096029 1000)
    x.rational?.isSome ∧ (x.add? (.int 0)).bind rational? ≠ x.rational? ∧
      ((Value.int 0).add? x).bind rational? ≠ x.rational? ∧
      (x.sub? (.int 0)).bind rational? ≠ x.rational? ∧
      (sum [x]).rational? ≠ x.rational? ∧ x.deepEq (sum [x]) = false := by
  decide +kernel

end Value

end JsonQuery
