import Mathlib
import JsonQuery.Double.Basic

/-! Rounding to the nearest double. The result depends on the ratio alone, it keeps the order, and
what a double can hold is its own rounding. Powers of two bound the result, since the distance
between neighbouring doubles changes at them. -/
namespace JsonQuery

private theorem div_nearest_cases (n d : Nat) :
    (divNearestEven n d = n / d ∧ 2 * (n % d) ≤ d) ∨
      (divNearestEven n d = n / d + 1 ∧ d ≤ 2 * (n % d)) := by
  simp only [divNearestEven]
  split_ifs <;> omega

theorem div_nearest_scale (positive : 0 < k) (n d : Nat) :
    divNearestEven (k * n) (k * d) = divNearestEven n d := by
  have twice : 2 * (k * (n % d)) = k * (2 * (n % d)) := by ring
  simp only [divNearestEven, Nat.mul_div_mul_left _ _ positive, Nat.mul_mod_mul_left, twice,
    Nat.mul_lt_mul_left positive]

private theorem div_nearest_exact (positive : 0 < d) (q : Nat) : divNearestEven (q * d) d = q := by
  simp [divNearestEven, Nat.mul_div_cancel _ positive, positive]

theorem div_nearest_own (n : Nat) : divNearestEven n 1 = n := by
  have exact := div_nearest_exact Nat.one_pos n
  rwa [Nat.mul_one] at exact

private theorem div_nearest_mono (d : Nat) (le : n ≤ m) :
    divNearestEven n d ≤ divNearestEven m d := by
  have quotients := Nat.div_le_div_right (c := d) le
  obtain less | same := Nat.lt_or_eq_of_le quotients
  · rcases div_nearest_cases n d with ⟨low, -⟩ | ⟨low, -⟩ <;>
      rcases div_nearest_cases m d with ⟨high, -⟩ | ⟨high, -⟩ <;> omega
  · have remainders : n % d ≤ m % d := by
      have first := Nat.div_add_mod n d
      have second := Nat.div_add_mod m d
      rw [same] at first
      omega
    simp only [divNearestEven, same]
    split_ifs <;> omega

private theorem log2_mono {n m : Nat} (le : n ≤ m) : n.log2 ≤ m.log2 := by
  rw [Nat.log2_eq_log_two, Nat.log2_eq_log_two]
  exact Nat.log_mono_right le

theorem twoPow_eq (n : Nat) : twoPow n = 2 ^ n := rfl

theorem twoPow_pos (n : Nat) : 0 < twoPow n :=
  Nat.two_pow_pos n

theorem twoPow_add (n m : Nat) : twoPow (n + m) = twoPow n * twoPow m :=
  Nat.pow_add 2 n m

theorem twoPow_lt (less : n < m) : twoPow n < twoPow m :=
  Nat.pow_lt_pow_right (by decide) less

theorem unitsPerOne_eq : unitsPerOne = twoPow 1074 := rfl

theorem unitsLimit_eq : unitsLimit = twoPow 2098 := rfl

theorem unitsPerOne_pos : 0 < unitsPerOne :=
  twoPow_pos 1074

private theorem quantum_pos (units : Nat) : 0 < quantum units :=
  Nat.two_pow_pos _

theorem quantum_eq (units : Nat) : quantum units = 2 ^ (units.log2 - 52) := rfl

/-- A power of two that is not below the quotient stays above the result. -/
theorem round_le_two_pow (positive : 0 < d) (le : n ≤ 2 ^ e * d) : roundUnits n d ≤ 2 ^ e := by
  have quotient : n / d ≤ 2 ^ e := Nat.div_le_of_le_mul (by rwa [Nat.mul_comm])
  have power : (n / d).log2 ≤ e := by
    have log := log2_mono quotient
    rwa [Nat.log2_two_pow] at log
  have steps : 2 ^ e = 2 ^ (e - ((n / d).log2 - 52)) * quantum (n / d) := by
    rw [quantum_eq, ← Nat.pow_add]
    congr 1
    omega
  have bound : divNearestEven n (d * quantum (n / d)) ≤ 2 ^ (e - ((n / d).log2 - 52)) := by
    rw [← div_nearest_exact (Nat.mul_pos positive (quantum_pos (n / d)))
      (2 ^ (e - ((n / d).log2 - 52)))]
    apply div_nearest_mono
    calc n ≤ 2 ^ e * d := le
      _ = _ := by rw [steps]; ring
  calc roundUnits n d = divNearestEven n (d * quantum (n / d)) * quantum (n / d) := rfl
    _ ≤ _ := Nat.mul_le_mul_right _ bound
    _ = 2 ^ e := steps.symm

/-- A power of two that is not above the quotient stays below the result. -/
theorem two_pow_le_round (positive : 0 < d) (le : 2 ^ e * d ≤ n) : 2 ^ e ≤ roundUnits n d := by
  have quotient : 2 ^ e ≤ n / d := (Nat.le_div_iff_mul_le positive).mpr le
  have nonzero : n / d ≠ 0 := by
    have := Nat.two_pow_pos e
    omega
  have power : e ≤ (n / d).log2 := (Nat.le_log2 nonzero).mpr quotient
  have steps : 2 ^ (n / d).log2 =
      2 ^ ((n / d).log2 - ((n / d).log2 - 52)) * quantum (n / d) := by
    rw [quantum_eq, ← Nat.pow_add]
    congr 1
    omega
  have bound : 2 ^ ((n / d).log2 - ((n / d).log2 - 52)) ≤
      divNearestEven n (d * quantum (n / d)) := by
    rw [← div_nearest_exact (Nat.mul_pos positive (quantum_pos (n / d)))
      (2 ^ ((n / d).log2 - ((n / d).log2 - 52)))]
    apply div_nearest_mono
    calc _ = 2 ^ (n / d).log2 * d := by rw [steps]; ring
      _ ≤ n / d * d := Nat.mul_le_mul_right _ (Nat.log2_self_le nonzero)
      _ ≤ n := Nat.div_mul_le_self n d
  calc 2 ^ e ≤ 2 ^ (n / d).log2 := Nat.pow_le_pow_right (by decide) power
    _ = _ := steps
    _ ≤ roundUnits n d := Nat.mul_le_mul_right _ bound

private theorem round_scale (positive : 0 < k) (n d : Nat) :
    roundUnits (k * n) (k * d) = roundUnits n d := by
  simp only [roundUnits, Nat.mul_div_mul_left _ _ positive, Nat.mul_assoc,
    div_nearest_scale positive]

/-- The result depends on the ratio alone. -/
theorem round_ratio (first : 0 < d) (second : 0 < k) (same : n * k = m * d) :
    roundUnits n d = roundUnits m k := by
  rw [← round_scale second n d, ← round_scale first m k, Nat.mul_comm k n, same,
    Nat.mul_comm m d, Nat.mul_comm k d]

/-- Of two quotients the greater one has no less a result. -/
theorem round_mono_right (positive : 0 < d) (le : n ≤ m) : roundUnits n d ≤ roundUnits m d := by
  have quotients : n / d ≤ m / d := Nat.div_le_div_right le
  have powers := log2_mono quotients
  by_cases same : quantum (n / d) = quantum (m / d)
  · unfold roundUnits
    rw [same]
    exact Nat.mul_le_mul_right _ (div_nearest_mono _ le)
  · -- Between the two lies the power of two at which the steps of the greater one begin.
    have apart : (n / d).log2 < (m / d).log2 := by
      refine Nat.lt_of_le_of_ne powers fun equal => same ?_
      rw [quantum_eq, quantum_eq, equal]
    have nonzero : m / d ≠ 0 := by
      intro zero
      simp [zero] at apart
    have below : n ≤ 2 ^ (m / d).log2 * d := by
      have quotient : n / d < 2 ^ (m / d).log2 :=
        Nat.lt_of_lt_of_le Nat.lt_log2_self (Nat.pow_le_pow_right (by decide) apart)
      exact Nat.le_of_lt ((Nat.div_lt_iff_lt_mul positive).mp quotient)
    have above : 2 ^ (m / d).log2 * d ≤ m :=
      (Nat.le_div_iff_mul_le positive).mp (Nat.log2_self_le nonzero)
    exact (round_le_two_pow positive below).trans (two_pow_le_round positive above)

/-- What a double can hold is not changed. -/
theorem round_exact (positive : 0 < d) (fits : quantum units ∣ units) :
    roundUnits (units * d) d = units := by
  obtain ⟨q, same⟩ := fits
  have quotient : units * d / d = units := Nat.mul_div_cancel _ positive
  have product : units * d = q * (d * quantum units) := by
    calc units * d = quantum units * q * d := by rw [← same]
      _ = _ := by ring
  calc roundUnits (units * d) d
      = divNearestEven (units * d) (d * quantum units) * quantum units := by
        rw [roundUnits, quotient]
    _ = q * quantum units := by
        rw [product, div_nearest_exact (Nat.mul_pos positive (quantum_pos units))]
    _ = units := by rw [Nat.mul_comm, ← same]

theorem round_own (fits : quantum units ∣ units) : roundUnits units 1 = units := by
  have exact := round_exact Nat.one_pos fits
  rwa [Nat.mul_one] at exact

/-- Less than half a unit is nothing. -/
theorem round_tiny (less : 2 * n < d) : roundUnits n d = 0 := by
  have quotient : n / d = 0 := Nat.div_eq_of_lt (by omega)
  have remainder : n % d = n := Nat.mod_eq_of_lt (by omega)
  have one : quantum 0 = 1 := rfl
  simp [roundUnits, divNearestEven, quotient, remainder, less, one]

/-- Whatever has at most 53 significant bits is a whole number of steps. -/
theorem quantum_dvd (small : significand ≤ twoPow 53) (shift : Nat) :
    quantum (significand * twoPow shift) ∣ significand * twoPow shift := by
  rw [quantum_eq, twoPow_eq shift]
  obtain less | full := Nat.lt_or_eq_of_le small
  · have bound : (significand * 2 ^ shift).log2 - 52 ≤ shift := by
      by_cases zero : significand = 0
      · simp [zero]
      · have product : significand * 2 ^ shift < 2 ^ (53 + shift) := by
          rw [Nat.pow_add]
          exact Nat.mul_lt_mul_of_pos_right less (Nat.two_pow_pos _)
        have power := (Nat.log2_lt (Nat.mul_ne_zero zero (Nat.two_pow_pos _).ne')).mpr product
        omega
    exact (Nat.pow_dvd_pow 2 bound).mul_left _
  · rw [full, twoPow_eq, ← Nat.pow_add, Nat.log2_two_pow]
    exact Nat.pow_dvd_pow 2 (by omega)

/-- The result has at most 53 significant bits. -/
theorem quantum_dvd_round (n d : Nat) : quantum (roundUnits n d) ∣ roundUnits n d := by
  have power : n / d < 2 ^ ((n / d).log2 + 1) := Nat.lt_log2_self
  have steps : 2 ^ ((n / d).log2 + 1) ≤ twoPow 53 * quantum (n / d) := by
    rw [quantum_eq, twoPow_eq, ← Nat.pow_add]
    exact Nat.pow_le_pow_right (by decide) (by omega)
  have least : n / (d * quantum (n / d)) < twoPow 53 := by
    rw [← Nat.div_div_eq_div_mul]
    exact Nat.div_lt_of_lt_mul (by rw [Nat.mul_comm]; omega)
  have small : divNearestEven n (d * quantum (n / d)) ≤ twoPow 53 := by
    rcases div_nearest_cases n (d * quantum (n / d)) with ⟨low, -⟩ | ⟨low, -⟩ <;> omega
  exact quantum_dvd small ((n / d).log2 - 52)

/-- What lies below a power of two that is in range rounds to a finite double. -/
theorem round_representable (positive : 0 < d) (range : e < 2098) (le : n ≤ twoPow e * d) :
    Representable (roundUnits n d) := by
  have below : roundUnits n d ≤ twoPow e := round_le_two_pow positive le
  have limit : twoPow e < unitsLimit := by
    rw [unitsLimit_eq]
    exact twoPow_lt range
  exact ⟨Nat.lt_of_le_of_lt below limit, quantum_dvd_round n d⟩

namespace Double

theorem of_units_finite (representable : Representable units) (negative : Bool) :
    ofUnits negative units = .finite negative units representable :=
  dif_pos representable

end Double

section Signed

/-- A place on the line of units, rounded to the nearest place that a double can have. -/
def nearestRank (rank : Int) : Int :=
  signed (rank < 0) (roundUnits rank.natAbs 1)

theorem signed_natAbs (rank : Int) : signed (rank < 0) rank.natAbs = rank := by
  unfold signed
  split_ifs with negative
  · have below : rank < 0 := of_decide_eq_true negative
    omega
  · have above : ¬rank < 0 := fun below => negative (decide_eq_true below)
    omega

theorem natAbs_signed (negative : Bool) (units : Nat) : (signed negative units).natAbs = units := by
  cases negative <;> simp [signed]

theorem signed_mul (negative : Bool) (m k : Nat) : signed negative (m * k) = signed negative m * k := by
  cases negative <;> simp [signed]

theorem nearest_rank_exact (fits : quantum rank.natAbs ∣ rank.natAbs) : nearestRank rank = rank := by
  rw [nearestRank, round_own fits, signed_natAbs]

theorem nearest_rank_mono (le : first ≤ second) : nearestRank first ≤ nearestRank second := by
  have magnitudes {n m : Nat} (le : n ≤ m) : roundUnits n 1 ≤ roundUnits m 1 :=
    round_mono_right Nat.one_pos le
  by_cases low : first < 0
  · by_cases high : second < 0
    · have rounded := magnitudes (n := second.natAbs) (m := first.natAbs) (by omega)
      simp only [nearestRank, low, high, decide_true, signed, if_true]
      omega
    · simp only [nearestRank, low, high, decide_true, decide_false, signed, if_true,
        Bool.false_eq_true, if_false]
      omega
  · have high : ¬second < 0 := by omega
    have rounded := magnitudes (n := first.natAbs) (m := second.natAbs) (by omega)
    simp only [nearestRank, low, high, decide_false, signed, Bool.false_eq_true, if_false]
    omega

/-- Rounding may make two places one, and does not exchange them. -/
theorem compare_nearest_rank (first second : Int) :
    compare (nearestRank first) (nearestRank second) =
      if nearestRank first = nearestRank second then .eq else compare first second := by
  split_ifs with same
  · exact compare_eq_iff_eq.mpr same
  · rcases lt_trichotomy first second with less | equal | greater
    · have rounded := lt_of_le_of_ne (nearest_rank_mono (Int.le_of_lt less)) same
      rw [compare_lt_iff_lt.mpr less, compare_lt_iff_lt.mpr rounded]
    · exact absurd (congrArg nearestRank equal) same
    · have rounded := lt_of_le_of_ne (nearest_rank_mono (Int.le_of_lt greater)) (Ne.symm same)
      rw [compare_gt_iff_gt.mpr greater, compare_gt_iff_gt.mpr rounded]

/-- The double nearest to an integer of 64 bits, with a sign or without, is finite. -/
theorem int_representable (range : n ≤ twoPow 64) :
    Representable (roundUnits (n * unitsPerOne) 1) := by
  refine round_representable (e := 64 + 1074) Nat.one_pos (by decide) ?_
  rw [unitsPerOne_eq, Nat.mul_one, twoPow_add]
  exact Nat.mul_le_mul_right _ range

theorem scaled_neg_iff {k : Int} (positive : 0 < k) (n : Int) : n * k < 0 ↔ n < 0 := by
  rw [mul_neg_iff]
  omega

/-- Every integer of 64 bits has a nearest double, which is finite. -/
theorem of_int_rank (n : Int64) :
    (Double.ofInt n.toInt).rank? = some (nearestRank (n.toInt * unitsPerOne)) := by
  have positive : (0 : Int) < unitsPerOne := by exact_mod_cast unitsPerOne_pos
  have lower := n.le_toInt
  have upper := n.toInt_lt
  have bits : n.toInt.natAbs ≤ twoPow 64 := by
    have value : twoPow 64 = 18446744073709551616 := rfl
    omega
  have sign : decide (n.toInt * unitsPerOne < 0) = decide (n.toInt < 0) :=
    decide_eq_decide.mpr (scaled_neg_iff positive n.toInt)
  rw [Double.ofInt, Double.nearest, Double.nearestUnits,
    Double.of_units_finite (int_representable bits), Double.rank?, nearestRank, Int.natAbs_mul,
    Int.natAbs_natCast, sign]

end Signed

end JsonQuery
