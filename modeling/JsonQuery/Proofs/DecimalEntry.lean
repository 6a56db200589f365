import Mathlib
import JsonQuery.Proofs.IntegerSums
import JsonQuery.Proofs.WholeDoubles

/-! Doubles that enter decimals. A halving more makes a place more and a factor of five, until there is
no room, and then bits are lost; after that digits are dropped while there are too many of them. A
whole double enters as the integer that it is, and so does a fraction that is a short decimal. The
smallest doubles enter as zero. -/
namespace JsonQuery.Decimal

/-- What is left of a coefficient with its places once it has entered: few places, few digits, and no
zeros at the end. -/
def shorten (entered : Nat × Nat) : Nat × Nat :=
  let scaled := limitScale entered.2 entered.1
  let narrowed := limitBits scaled.2 scaled.1
  stripZeros narrowed.2 narrowed.1

/-- The coefficient and the places of a double with a part of one. -/
def entry (units : Nat) : Nat × Nat :=
  let halvings := 1074 - (units.log2 - 52)
  shorten (absorbHalvings halvings (units / twoPow (units.log2 - 52)) halvings)

/-- The units are a fraction whose decimal has a coefficient of at most 52 bits: an odd number of
twos to the power `-p`, and so a decimal with `p` places. -/
structure ShortFraction (units a s p : Nat) : Prop where
  same : units = a * twoPow s
  odd : a % 2 = 1
  places : s + p = 1074
  part : 0 < p
  short : a * 5 ^ p < twoPow 52

theorem of_double_fine (representable : Representable units) (fine : units.log2 - 52 < 1074)
    (negative : Bool) : ofDouble? (.finite negative units representable) =
      some ⟨signed negative (entry units).1, (entry units).2⟩ := by
  rw [ofDouble?]
  dsimp only
  rw [if_neg (Nat.not_le.mpr fine)]
  rfl

/-! ## Coefficients never grow too large -/

private theorem absorb_below (below : m < limit) (halvings places : Nat) :
    (absorbHalvings halvings m places).1 < limit := by
  induction halvings generalizing m places with
  | zero => exact below
  | succ halvings ih =>
    have half : m / 2 < limit := Nat.lt_of_le_of_lt (Nat.div_le_self ..) below
    rw [absorbHalvings]
    split_ifs with even room
    · exact ih half _
    · exact ih room _
    · exact ih half _

private theorem drop_digit_bound (m : Nat) : 10 * dropDigit m ≤ m + 5 := by
  unfold dropDigit
  split_ifs <;> omega

private theorem limit_scale_le (places m : Nat) : (limitScale places m).1 ≤ m := by
  induction places generalizing m with
  | zero => exact Nat.le_refl m
  | succ places ih =>
    rw [limitScale]
    split_ifs with short vanishes
    · exact Nat.le_refl m
    · exact Nat.zero_le m
    · have bound := drop_digit_bound m
      exact (ih _).trans (by omega)

private theorem limit_bits_le (places m : Nat) : (limitBits places m).1 ≤ m := by
  induction places generalizing m with
  | zero => exact Nat.le_refl m
  | succ places ih =>
    rw [limitBits]
    split_ifs with long
    · have bound := drop_digit_bound m
      have large : 1 ≤ m := (twoPow_pos 52).trans_le long
      exact (ih _).trans (by omega)
    · exact Nat.le_refl m

private theorem strip_zeros_le (places m : Nat) : (stripZeros places m).1 ≤ m := by
  induction places generalizing m with
  | zero => exact Nat.le_refl m
  | succ places ih =>
    rw [stripZeros]
    split_ifs
    · exact (ih _).trans (Nat.div_le_self ..)
    · exact Nat.le_refl m

private theorem shorten_le (entered : Nat × Nat) : (shorten entered).1 ≤ entered.1 :=
  (strip_zeros_le ..).trans ((limit_bits_le ..).trans (limit_scale_le ..))

private theorem significand_below (units : Nat) : units / twoPow (units.log2 - 52) < 2 ^ 53 := by
  rw [Nat.div_lt_iff_lt_mul (twoPow_pos _), twoPow_eq, ← Nat.pow_add]
  exact Nat.lt_log2_self.trans_le (Nat.pow_le_pow_right two_pos (by omega))

theorem of_double_below (known : ofDouble? x = some d) : d.coefficient.natAbs < limit := by
  cases x with
  | finite negative units representable =>
    by_cases coarse : 1074 ≤ units.log2 - 52
    · rw [of_double_coarse representable coarse] at known
      split_ifs at known with room
      cases known
      rwa [natAbs_signed]
    · rw [of_double_fine representable (Nat.not_le.mp coarse), Option.some.injEq] at known
      subst known
      rw [natAbs_signed]
      have below : units / twoPow (units.log2 - 52) < limit := by
        have bound := significand_below units
        rw [decimal_limit_eq]
        omega
      exact (shorten_le _).trans_lt (absorb_below below ..)
  | _ => cases known

/-! ## Exact entries -/

private theorem absorb_halves (halvings a places e : Nat) :
    absorbHalvings (halvings + e) (a * 2 ^ e) (places + e) = absorbHalvings halvings a places := by
  induction e with
  | zero => simp
  | succ e ih =>
    have even : a * 2 ^ (e + 1) = 2 * (a * 2 ^ e) := by ring
    rw [← Nat.add_assoc, absorbHalvings, even, if_pos (Nat.mul_mod_right ..),
      Nat.mul_div_cancel_left _ two_pos, ← Nat.add_assoc, Nat.add_sub_cancel, ih]

private theorem absorb_fives (odd : a % 2 = 1) (room : a * 5 ^ halvings < limit) (places : Nat) :
    absorbHalvings halvings a places = (a * 5 ^ halvings, places) := by
  induction halvings generalizing a with
  | zero => rw [absorbHalvings, Nat.pow_zero, Nat.mul_one]
  | succ halvings ih =>
    have five : a * 5 ^ (halvings + 1) = 5 * a * 5 ^ halvings := by ring
    rw [five] at room ⊢
    have first : 5 * a < limit := (Nat.le_mul_of_pos_right _ (by positivity)).trans_lt room
    rw [absorbHalvings, if_neg (by omega), if_pos first, ih (by omega) room]

/-- What has few places and few digits is not shortened, apart from zeros at the end. -/
theorem shorten_short (places : p ≤ maxScale) (digits : m < twoPow 52) :
    shorten (m, p) = stripZeros p m := by
  have scaled : limitScale p m = (m, p) := by
    cases p with
    | zero => rfl
    | succ p => rw [limitScale, if_pos places]
  have narrowed : limitBits p m = (m, p) := by
    cases p with
    | zero => rfl
    | succ p => rw [limitBits, if_neg (Nat.not_le.mpr digits)]
  simp only [shorten, scaled, narrowed]

private theorem strip_zeros_odd (odd : m % 2 = 1) (places : Nat) :
    stripZeros places m = (m, places) := by
  cases places with
  | zero => rfl
  | succ places => rw [stripZeros, if_neg (by omega)]

/-- Binary places that the significand does not need are no decimal places. -/
theorem entry_shifted (same : units = a * twoPow s) (fine : units.log2 - 52 ≤ s) (below : s ≤ 1074) :
    entry units = shorten (absorbHalvings (1074 - s) a (1074 - s)) := by
  unfold entry
  generalize units.log2 - 52 = shift at fine ⊢
  have parts : units = a * 2 ^ (s - shift) * twoPow shift := by
    rw [same, Nat.mul_assoc, ← twoPow_eq, ← twoPow_add, Nat.sub_add_cancel fine]
  have halvings : 1074 - shift = 1074 - s + (s - shift) := by omega
  dsimp only
  rw [parts, Nat.mul_div_cancel _ (twoPow_pos _), halvings, absorb_halves]

private theorem entry_whole (same : units = k * unitsPerOne) (fine : units.log2 - 52 ≤ 1074) :
    entry units = (k, 0) :=
  entry_shifted same fine (Nat.le_refl _)

/-- A whole double enters as an integer, if there is room for it. -/
theorem of_double_integer (representable : Representable units) (same : units = k * unitsPerOne)
    (negative : Bool) : ofDouble? (.finite negative units representable) =
      if k < limit then some ⟨signed negative k, 0⟩ else none := by
  by_cases coarse : 1074 ≤ units.log2 - 52
  · have ones : units / unitsPerOne = k := by rw [same, Nat.mul_div_cancel _ unitsPerOne_pos]
    rw [of_double_coarse representable coarse, ones]
  · have fine := Nat.not_le.mp coarse
    have known := of_double_fine representable fine negative
    rw [entry_whole same (Nat.le_of_lt fine)] at known
    have room := of_double_below known
    rw [natAbs_signed] at room
    rw [known, if_pos room]

/-- The step between the doubles around a magnitude divides its power of two. -/
theorem step_le (representable : Representable units) (same : units = a * twoPow s)
    (odd : a % 2 = 1) : units.log2 - 52 ≤ s := by
  have steps := representable.2
  rw [quantum_eq] at steps
  by_contra apart
  have more : 2 ^ (s + 1) ∣ units := (pow_dvd_pow 2 (Nat.not_le.mp apart)).trans steps
  rw [same, twoPow_eq, pow_succ, Nat.mul_comm] at more
  have even : 2 ∣ a := Nat.dvd_of_mul_dvd_mul_right (pow_pos two_pos s) more
  omega

theorem odd_fives (odd : a % 2 = 1) (p : Nat) : a * 5 ^ p % 2 = 1 := by
  rw [Nat.mul_mod, Nat.pow_mod, odd, show 5 % 2 = 1 from rfl, Nat.one_pow]

theorem ShortFraction.positive (fraction : ShortFraction units a s p) : 0 < a := by
  have odd := fraction.odd
  omega

theorem ShortFraction.few (fraction : ShortFraction units a s p) : p ≤ 22 := by
  by_contra many
  have short := fraction.short
  have power : 5 ^ 23 ≤ 5 ^ p := Nat.pow_le_pow_right (by decide) (Nat.not_le.mp many)
  have least : 5 ^ p ≤ a * 5 ^ p := Nat.le_mul_of_pos_left _ fraction.positive
  have value : twoPow 52 < 5 ^ 23 := by decide
  omega

/-- A short decimal fraction enters as it is. -/
theorem of_double_fraction (representable : Representable units)
    (fraction : ShortFraction units a s p) (negative : Bool) :
    ofDouble? (.finite negative units representable) = some ⟨signed negative (a * 5 ^ p), p⟩ := by
  have scale : p ≤ maxScale := fraction.few.trans (by decide)
  obtain ⟨same, odd, places, part, short⟩ := fraction
  have fine := step_le representable same odd
  have room : a * 5 ^ p < limit := short.trans (twoPow_lt (by decide))
  rw [of_double_fine representable (by omega), entry_shifted same fine (by omega),
    show 1074 - s = p by omega, absorb_fives odd room, shorten_short scale short,
    strip_zeros_odd (odd_fives odd p)]

/-! ## Entries of nothing -/

/-- Absorbed halvings never make a coefficient greater. -/
theorem absorb_bound (halvings m k : Nat) :
    (absorbHalvings halvings m (k + halvings)).1 * 2 ^ halvings * 10 ^ k ≤
      m * 10 ^ (absorbHalvings halvings m (k + halvings)).2 := by
  induction halvings generalizing m k with
  | zero => simp [absorbHalvings]
  | succ halvings ih =>
    have half {r : Nat × Nat} (bound : r.1 * 2 ^ halvings * 10 ^ k ≤ m / 2 * 10 ^ r.2) :
        r.1 * 2 ^ (halvings + 1) * 10 ^ k ≤ m * 10 ^ r.2 := by
      calc r.1 * 2 ^ (halvings + 1) * 10 ^ k = 2 * (r.1 * 2 ^ halvings * 10 ^ k) := by ring
        _ ≤ 2 * (m / 2 * 10 ^ r.2) := Nat.mul_le_mul_left 2 bound
        _ = 2 * (m / 2) * 10 ^ r.2 := by ring
        _ ≤ m * 10 ^ r.2 := Nat.mul_le_mul_right _ (Nat.mul_div_le m 2)
    have five {r : Nat × Nat} (bound : r.1 * 2 ^ halvings * 10 ^ (k + 1) ≤ 5 * m * 10 ^ r.2) :
        r.1 * 2 ^ (halvings + 1) * 10 ^ k ≤ m * 10 ^ r.2 := by
      refine Nat.le_of_mul_le_mul_left ?_ (show 0 < 5 by decide)
      calc 5 * (r.1 * 2 ^ (halvings + 1) * 10 ^ k) = r.1 * 2 ^ halvings * 10 ^ (k + 1) := by ring
        _ ≤ 5 * m * 10 ^ r.2 := bound
        _ = 5 * (m * 10 ^ r.2) := by ring
    have same : k + (halvings + 1) = k + 1 + halvings := by omega
    have fewer : k + 1 + halvings - 1 = k + halvings := by omega
    rw [absorbHalvings, same, fewer]
    split_ifs
    · exact half (ih (m / 2) k)
    · exact five (ih (5 * m) (k + 1))
    · exact half (ih (m / 2) k)

/-- Dropped places leave nothing of less than four ninths of the last place that there is. Five ninths
more are what the rounding of the places before it may have added. -/
theorem limit_scale_vanishes (tiny : 9 * m * 10 ^ maxScale < 4 * 10 ^ places + 5 * 10 ^ maxScale) :
    (limitScale places m).1 = 0 := by
  have value : 10 ^ maxScale = 10000000000000000000000000000 := rfl
  induction places generalizing m with
  | zero =>
    rw [limitScale]
    rw [value] at tiny
    omega
  | succ places ih =>
    rw [limitScale]
    split_ifs with short vanishes
    · have power : 10 ^ (places + 1) ≤ 10 ^ maxScale := Nat.pow_le_pow_right (by decide) short
      rw [value] at tiny power
      omega
    · rfl
    · have bound := Nat.mul_le_mul_right (10 ^ maxScale) (drop_digit_bound m)
      rw [pow_succ] at tiny
      exact ih (by linarith)

private theorem shorten_vanishes (vanished : (limitScale entered.2 entered.1).1 = 0) :
    shorten entered = (0, 0) := by
  have narrowed (places : Nat) : limitBits places 0 = (0, places) := by
    cases places <;> rfl
  have stripped (places : Nat) : stripZeros places 0 = (0, 0) := by
    induction places with
    | zero => rfl
    | succ places ih => exact ih
  simp only [shorten, vanished, narrowed, stripped]

/-- A double below four ninths of the last place of decimals enters as zero. -/
theorem of_double_tiny (representable : Representable units)
    (tiny : 9 * units * 10 ^ maxScale < 4 * unitsPerOne) (negative : Bool) :
    ofDouble? (.finite negative units representable) = some ⟨0, 0⟩ := by
  have less : units < unitsPerOne := by
    have value : 10 ^ maxScale = 10000000000000000000000000000 := rfl
    rw [value] at tiny
    omega
  have fine : units.log2 - 52 < 1074 := by
    by_contra coarse
    have divisible := coarse_whole representable (Nat.not_lt.mp coarse)
    have zero : units = 0 := Nat.eq_zero_of_dvd_of_lt divisible less
    rw [zero] at coarse
    exact coarse (by decide)
  have vanished : entry units = (0, 0) := by
    unfold entry
    have parts := Nat.div_mul_le_self units (twoPow (units.log2 - 52))
    generalize units.log2 - 52 = shift at fine parts ⊢
    generalize units / twoPow shift = m at parts ⊢
    have bound := absorb_bound (1074 - shift) m 0
    rw [Nat.zero_add, Nat.pow_zero, Nat.mul_one] at bound
    refine shorten_vanishes (limit_scale_vanishes ?_)
    generalize absorbHalvings (1074 - shift) m (1074 - shift) = entered at bound ⊢
    have ones : 2 ^ (1074 - shift) * twoPow shift = unitsPerOne := by
      rw [← twoPow_eq, ← twoPow_add, Nat.sub_add_cancel (Nat.le_of_lt fine), unitsPerOne_eq]
    have size : entered.1 * unitsPerOne ≤ units * 10 ^ entered.2 := by
      calc entered.1 * unitsPerOne = entered.1 * 2 ^ (1074 - shift) * twoPow shift := by
            rw [← ones, Nat.mul_assoc]
        _ ≤ m * 10 ^ entered.2 * twoPow shift := Nat.mul_le_mul_right _ bound
        _ = m * twoPow shift * 10 ^ entered.2 := Nat.mul_right_comm ..
        _ ≤ units * 10 ^ entered.2 := Nat.mul_le_mul_right _ parts
    have small : 9 * entered.1 * 10 ^ maxScale < 4 * 10 ^ entered.2 := by
      refine lt_of_mul_lt_mul_right ?_ (Nat.zero_le unitsPerOne)
      calc 9 * entered.1 * 10 ^ maxScale * unitsPerOne
          = 9 * 10 ^ maxScale * (entered.1 * unitsPerOne) := by ring
        _ ≤ 9 * 10 ^ maxScale * (units * 10 ^ entered.2) := Nat.mul_le_mul_left _ size
        _ = 9 * units * 10 ^ maxScale * 10 ^ entered.2 := by ring
        _ < 4 * unitsPerOne * 10 ^ entered.2 :=
          Nat.mul_lt_mul_of_pos_right tiny (Nat.pow_pos (by decide))
        _ = 4 * 10 ^ entered.2 * unitsPerOne := Nat.mul_right_comm ..
    omega
  rw [of_double_fine representable fine, vanished]
  cases negative <;> rfl

end JsonQuery.Decimal
