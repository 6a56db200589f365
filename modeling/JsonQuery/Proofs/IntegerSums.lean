import Mathlib
import JsonQuery.Proofs.Rounding
import JsonQuery.Value.Arithmetic

/-! Sums of integers. A running total is exact while it fits into 64 bits. Beyond that it is carried
by the nearest double, and what the rounding takes away is still missing when the total comes back
into 64 bits. So the order of the integers decides whether their sum is exact. -/
namespace JsonQuery

/-! ## Whole doubles -/

private theorem log2_shifted (nonzero : n ≠ 0) (shift : Nat) :
    (n * twoPow shift).log2 = n.log2 + shift := by
  have shifted : n * twoPow shift ≠ 0 := Nat.mul_ne_zero nonzero (twoPow_pos shift).ne'
  rw [Nat.log2_eq_iff shifted, Nat.pow_add, Nat.add_right_comm, Nat.pow_add]
  exact ⟨Nat.mul_le_mul_right _ (Nat.log2_self_le nonzero),
    Nat.mul_lt_mul_of_pos_right Nat.lt_log2_self (twoPow_pos shift)⟩

/-- Whole numbers are rounded as places are. -/
theorem round_whole (n shift : Nat) :
    roundUnits (n * twoPow shift) 1 = roundUnits n 1 * twoPow shift := by
  by_cases small : n ≤ twoPow 53
  · have whole := quantum_dvd small 0
    rw [show twoPow 0 = 1 from rfl, Nat.mul_one] at whole
    rw [round_own (quantum_dvd small shift), round_own whole]
  · have nonzero : n ≠ 0 := by
      rintro rfl
      exact small (Nat.zero_le _)
    have bits : 53 ≤ n.log2 := (Nat.le_log2 nonzero).mpr (Nat.le_of_not_le small)
    have step : quantum (n * twoPow shift) = quantum n * twoPow shift := by
      rw [quantum_eq, quantum_eq, log2_shifted nonzero, twoPow_eq, ← Nat.pow_add]
      congr 1
      omega
    simp only [roundUnits, Nat.div_one, step, Nat.one_mul]
    rw [Nat.mul_comm n, Nat.mul_comm (quantum n), div_nearest_scale (twoPow_pos shift)]
    ring

private theorem nearest_rank_natAbs (n : Int) : (nearestRank n).natAbs = roundUnits n.natAbs 1 :=
  natAbs_signed _ _

private theorem two_pow_le_nearest {n : Int} (le : 2 ^ e ≤ n.natAbs) :
    2 ^ e ≤ (nearestRank n).natAbs := by
  rw [nearest_rank_natAbs]
  exact two_pow_le_round Nat.one_pos (by rwa [Nat.mul_one])

private theorem nearest_le_two_pow {n : Int} (le : n.natAbs ≤ 2 ^ e) :
    (nearestRank n).natAbs ≤ 2 ^ e := by
  rw [nearest_rank_natAbs]
  exact round_le_two_pow Nat.one_pos (by rwa [Nat.mul_one])

/-- Rounding keeps the sign. -/
theorem nearest_rank_neg_iff (n : Int) : nearestRank n < 0 ↔ n < 0 := by
  have zero : nearestRank 0 = 0 := rfl
  constructor
  · intro negative
    by_contra positive
    have above := nearest_rank_mono (Int.not_lt.mp positive)
    omega
  · intro negative
    have below := nearest_rank_mono (Int.le_of_lt negative)
    have size : 1 ≤ (nearestRank n).natAbs :=
      two_pow_le_nearest (e := 0) (Nat.one_le_iff_ne_zero.mpr (Int.natAbs_ne_zero.mpr negative.ne))
    omega

/-- The double is equal to the integer, and zero has no sign. -/
def Double.IsWhole (x : Double) (t : Int) : Prop :=
  ∃ representable, x = .finite (t < 0) (t.natAbs * unitsPerOne) representable

section Whole

variable {x y : Double} {t u : Int}

private theorem nearest_units_whole {n : Int} (range : n.natAbs ≤ 2 ^ 117) :
    (Double.nearestUnits (n < 0) (n.natAbs * unitsPerOne) 1).IsWhole (nearestRank n) := by
  have representable : Representable (roundUnits (n.natAbs * unitsPerOne) 1) := by
    refine round_representable (e := 117 + 1074) Nat.one_pos (by decide) ?_
    rw [unitsPerOne_eq, Nat.mul_one, twoPow_add]
    exact Nat.mul_le_mul_right _ range
  have units : roundUnits (n.natAbs * unitsPerOne) 1 =
      (nearestRank n).natAbs * unitsPerOne := by
    rw [nearest_rank_natAbs, unitsPerOne_eq, round_whole]
  rw [units] at representable
  refine ⟨representable, ?_⟩
  rw [Double.nearestUnits, units, Double.of_units_finite representable,
    decide_eq_decide.mpr (nearest_rank_neg_iff n)]

/-- An integer becomes the nearest double. -/
theorem of_int_whole {n : Int} (range : n.natAbs ≤ 2 ^ 117) :
    (Double.ofInt n).IsWhole (nearestRank n) := by
  rw [Double.ofInt, Double.nearest]
  exact nearest_units_whole range

private theorem signed_units (t : Int) :
    signed (t < 0) (t.natAbs * unitsPerOne) = t * unitsPerOne := by
  rw [signed_mul, signed_natAbs]

/-- The sum of whole doubles is the nearest double to the sum of the integers. -/
theorem add_whole (first : x.IsWhole t) (second : y.IsWhole u) (nonzero : t + u ≠ 0)
    (range : (t + u).natAbs ≤ 2 ^ 117) : (x.add y).IsWhole (nearestRank (t + u)) := by
  obtain ⟨_, rfl⟩ := first
  obtain ⟨_, rfl⟩ := second
  have units : t * unitsPerOne + u * unitsPerOne = (t + u) * unitsPerOne := (add_mul ..).symm
  have positive : (0 : Int) < unitsPerOne := by exact_mod_cast unitsPerOne_pos
  have sign : (decide ((t + u) * unitsPerOne < 0) ||
      (decide ((t + u) * unitsPerOne = 0) && decide (t < 0) && decide (u < 0))) =
        decide (t + u < 0) := by
    have some : ¬(t + u) * unitsPerOne = 0 := mul_ne_zero nonzero positive.ne'
    rw [decide_eq_false some, Bool.false_and, Bool.false_and, Bool.or_false,
      decide_eq_decide.mpr (scaled_neg_iff positive (t + u))]
  rw [Double.add, signed_units, signed_units, units, sign, Int.natAbs_mul, Int.natAbs_natCast]
  exact nearest_units_whole range

/-- A whole double beyond 64 bits is no integer value. -/
theorem of_double_whole (whole : x.IsWhole t) (large : 2 ^ 63 < t.natAbs) :
    Value.ofDouble x = .float x := by
  obtain ⟨representable, same⟩ := whole
  have known : x.whole? = some t := by
    rw [same, Double.whole?, if_pos (Nat.mul_mod_left ..), Nat.mul_div_cancel _ unitsPerOne_pos,
      signed_natAbs]
  rw [Value.ofDouble, known]
  dsimp only
  rw [if_neg (by omega)]

/-! ## Whole decimals -/

/-- A double without a fraction enters as it is, if there is room. -/
theorem of_double_coarse {units : Nat} (representable : Representable units)
    (coarse : 1074 ≤ units.log2 - 52) (negative : Bool) :
    Decimal.ofDouble? (.finite negative units representable) =
      if units / unitsPerOne < Decimal.limit then
        some ⟨signed negative (units / unitsPerOne), 0⟩ else none := by
  rw [Decimal.ofDouble?]
  dsimp only
  rw [if_pos coarse]

private theorem of_double_decimal (whole : x.IsWhole t) (large : 2 ^ 63 ≤ t.natAbs) :
    Decimal.ofDouble? x = if t.natAbs < Decimal.limit then some ⟨t, 0⟩ else none := by
  obtain ⟨representable, rfl⟩ := whole
  have nonzero : t.natAbs ≠ 0 := by omega
  have bits : 1074 ≤ (t.natAbs * unitsPerOne).log2 - 52 := by
    rw [unitsPerOne_eq, log2_shifted nonzero]
    have log : 63 ≤ t.natAbs.log2 := (Nat.le_log2 nonzero).mpr large
    omega
  rw [of_double_coarse representable bits, Nat.mul_div_cancel _ unitsPerOne_pos, signed_natAbs]

theorem add_whole_decimals (t u : Int) : (Decimal.mk t 0).add? (Decimal.ofInt u) =
    if (t + u).natAbs < Decimal.limit then some ⟨t + u, 0⟩ else none := by
  have one : divNearestEven (t + u).natAbs (tenPow 0) = (t + u).natAbs := div_nearest_own _
  have scaled : t * tenPow 0 + u * tenPow 0 = t + u := by simp [tenPow]
  simp only [Decimal.add?, Decimal.ofInt, Nat.max_self, Nat.sub_self, scaled, Decimal.fit?]
  rw [show List.range (0 + 1) = [0] from rfl, List.findSome?_cons, one]
  split_ifs <;> simp [signed_natAbs]

private theorem nearest_rank_negated (positive : 0 < n) : nearestRank (-n) = -nearestRank n := by
  have above : ¬n < 0 := by omega
  have below : -n < 0 := by omega
  rw [nearestRank, nearestRank, Int.natAbs_neg, decide_eq_true below, decide_eq_false above]
  rfl

private theorem neg_whole (whole : x.IsWhole t) (positive : 0 < t) : x.neg.IsWhole (-t) := by
  obtain ⟨representable, rfl⟩ := whole
  have above : ¬t < 0 := by omega
  have below : -t < 0 := by omega
  refine ⟨by rwa [Int.natAbs_neg], ?_⟩
  simp only [Double.neg, Int.natAbs_neg, decide_eq_true below, decide_eq_false above, Bool.not_false]

/-- A whole decimal leaves as the nearest double. -/
theorem whole_to_double (range : t.natAbs ≤ 2 ^ 117) :
    (Decimal.mk t 0).toDouble.IsWhole (nearestRank t) := by
  have one : tenPow 0 = 1 := rfl
  have magnitude : (Double.ofInt t.natAbs).IsWhole (nearestRank t.natAbs) :=
    of_int_whole (by rwa [Int.natAbs_natCast])
  simp only [Decimal.toDouble, one, Nat.div_one, Nat.mod_one, if_true]
  by_cases negative : t < 0
  · have positive : (0 : Int) < t.natAbs := by omega
    have turned := nearest_rank_negated positive
    rw [show -(t.natAbs : Int) = t by omega] at turned
    have above : 0 < nearestRank t.natAbs := by
      have kept := (nearest_rank_neg_iff t).mpr negative
      omega
    rw [decide_eq_true negative, if_pos rfl, turned]
    exact neg_whole magnitude above
  · have same : (t.natAbs : Int) = t := by omega
    rw [decide_eq_false negative, if_neg Bool.false_ne_true]
    rwa [same] at magnitude ⊢

end Whole

/-! ## Running totals -/

theorem fits_iff (n : Int) : fitsInt64 n = true ↔ -2 ^ 63 ≤ n ∧ n < 2 ^ 63 := by
  simp only [fitsInt64, Bool.and_eq_true, decide_eq_true_eq]
  omega

theorem fits_to_int (fits : fitsInt64 n = true) : (Int64.ofInt n).toInt = n :=
  have range := (fits_iff n).mp fits
  Int64.toInt_ofInt_of_le range.1 range.2

theorem int64_range (n : Int64) : -2 ^ 63 ≤ n.toInt ∧ n.toInt < 2 ^ 63 :=
  ⟨n.le_toInt, n.toInt_lt⟩

theorem decimal_limit_eq : Decimal.limit = 2 ^ 96 := rfl

namespace Value

/-- The value stands for a running total: an integer, or a double of a magnitude that integers do not
have. The least integer may occur as both. -/
inductive Carries : Value → Int → Prop where
  | int (n : Int64) : Carries (.int n) n.toInt
  | float (whole : x.IsWhole t) (large : 2 ^ 63 ≤ t.natAbs) : Carries (.float x) t

/-- The running total after one more integer. It is exact if it fits into 64 bits, and the nearest
double otherwise; where decimals have no room the integer is rounded before it is added. -/
def carry (t n : Int) : Int :=
  if fitsInt64 (t + n) then t + n
  else if t.natAbs < Decimal.limit ∧ (t + n).natAbs < Decimal.limit then nearestRank (t + n)
  else nearestRank (t + nearestRank n)

variable {v : Value} {t : Int} {n : Int64}

private theorem carries_decimal (carries : Carries v t) :
    v.toDecimal? = if t.natAbs < Decimal.limit then some ⟨t, 0⟩ else none := by
  cases carries with
  | int n =>
    have range := int64_range n
    rw [if_pos (by rw [decimal_limit_eq]; omega)]
    rfl
  | float whole large => exact of_double_decimal whole large

private theorem add_carried (carries : Carries v t) (n : Int64) : v.add? (.int n) =
    if t.natAbs < Decimal.limit ∧ (t + n.toInt).natAbs < Decimal.limit then
      some (ofDecimal ⟨t + n.toInt, 0⟩)
    else v.toDouble?.map fun x => ofDouble (x.add (.ofInt n.toInt)) := by
  have decimals : (do (← v.toDecimal?).add? (← (Value.int n).toDecimal?)) =
      if t.natAbs < Decimal.limit ∧ (t + n.toInt).natAbs < Decimal.limit then
        some ⟨t + n.toInt, 0⟩ else none := by
    rw [carries_decimal carries]
    by_cases room : t.natAbs < Decimal.limit
    · simp only [room, if_true, true_and]
      exact add_whole_decimals t n.toInt
    · simp [room]
  rw [add?, arithmetic, decimals]
  split_ifs with room
  · rfl
  · cases double : v.toDouble? <;> rfl

theorem of_decimal_fits (fits : fitsInt64 t = true) : ofDecimal ⟨t, 0⟩ = .int (Int64.ofInt t) := by
  have one : (tenPow 0 : Int) = 1 := rfl
  simp [ofDecimal, Decimal.toInt64?, one, toInt64?, fits]

theorem of_decimal_wide (wide : fitsInt64 t = false) :
    ofDecimal ⟨t, 0⟩ = .float (Decimal.mk t 0).toDouble := by
  have one : (tenPow 0 : Int) = 1 := rfl
  simp [ofDecimal, Decimal.toInt64?, one, toInt64?, wide]

/-- A total that fits into 64 bits is exact, whatever kind of number carries the one before. -/
theorem add_fits (carries : Carries v t) (fits : fitsInt64 (t + n.toInt) = true) :
    v.add? (.int n) = some (.int (Int64.ofInt (t + n.toInt))) := by
  have range := (fits_iff _).mp fits
  have own := int64_range n
  have room : t.natAbs < Decimal.limit ∧ (t + n.toInt).natAbs < Decimal.limit := by
    rw [decimal_limit_eq]
    omega
  rw [add_carried carries, if_pos room, of_decimal_fits fits]

/-- Two to the power 116 swallows every integer of 64 bits. -/
theorem nearest_rank_swallows {n : Int} (range : n.natAbs ≤ 2 ^ 116 + 2 ^ 63) :
    (nearestRank n).natAbs ≤ 2 ^ 116 := by
  have top : roundUnits (2 ^ 116 + 2 ^ 63) 1 = 2 ^ 116 := by decide +kernel
  rw [nearest_rank_natAbs, ← top]
  exact round_mono_right Nat.one_pos range

/-- A total that does not fit is carried by a double, and stays below a fixed limit. -/
theorem add_wide (carries : Carries v t) (bound : t.natAbs ≤ 2 ^ 116)
    (wide : fitsInt64 (t + n.toInt) = false) :
    ∃ x, v.add? (.int n) = some (.float x) ∧ Carries (.float x) (carry t n.toInt) ∧
      (carry t n.toInt).natAbs ≤ 2 ^ 116 := by
  have own := int64_range n
  have outside : 2 ^ 63 ≤ (t + n.toInt).natAbs := by
    have beyond := (fits_iff (t + n.toInt)).not.mp (by rw [wide]; exact Bool.false_ne_true)
    omega
  rw [add_carried carries, carry, wide, if_neg Bool.false_ne_true]
  by_cases room : t.natAbs < Decimal.limit ∧ (t + n.toInt).natAbs < Decimal.limit
  · rw [if_pos room, if_pos room, of_decimal_wide wide]
    have small : (t + n.toInt).natAbs ≤ 2 ^ 96 := by
      rw [← decimal_limit_eq]
      exact Nat.le_of_lt room.2
    have whole := whole_to_double (small.trans (Nat.pow_le_pow_right Nat.two_pos (by decide)))
    refine ⟨_, rfl, .float whole (two_pow_le_nearest outside), ?_⟩
    exact (nearest_le_two_pow small).trans (Nat.pow_le_pow_right Nat.two_pos (by decide))
  · rw [if_neg room, if_neg room]
    rw [decimal_limit_eq] at room
    have rounded : (nearestRank n.toInt).natAbs ≤ 2 ^ 63 := nearest_le_two_pow (by omega)
    have far : 2 ^ 64 ≤ (t + nearestRank n.toInt).natAbs := by omega
    -- Two integers of 64 bits always have room, so that here a double carries the total.
    cases carries with
    | int m =>
      have other := int64_range m
      omega
    | @float x _ whole large =>
      have double := of_int_whole (show n.toInt.natAbs ≤ 2 ^ 117 by omega)
      have sum := add_whole whole double (by omega) (by omega)
      have size := two_pow_le_nearest far
      refine ⟨_, congrArg some (of_double_whole sum (by omega)), .float sum (by omega), ?_⟩
      exact nearest_rank_swallows (by omega)

/-- The exact total. -/
def total (ns : List Int64) : Int :=
  (ns.map Int64.toInt).sum

/-- The running total after all integers. -/
def carried (ns : List Int64) : Int :=
  ns.foldl (fun t n => carry t n.toInt) 0

private theorem total_next (ns : List Int64) (n : Int64) :
    total (ns ++ [n]) = total ns + n.toInt := by
  simp [total]

private theorem carried_next (ns : List Int64) (n : Int64) :
    carried (ns ++ [n]) = carry (carried ns) n.toInt := by
  simp [carried]

private theorem sum_next (ns : List Int64) (n : Int64) : sum ((ns ++ [n]).map .int) =
    ((sum (ns.map .int)).add? (.int n)).getD (sum (ns.map .int)) := by
  simp [sum]

/-- After any integers the sum so far carries the running total. -/
theorem sum_carries (ns : List Int64) :
    Carries (sum (ns.map .int)) (carried ns) ∧ (carried ns).natAbs ≤ 2 ^ 116 := by
  induction ns using List.reverseRecOn with
  | nil => exact ⟨.int 0, Nat.zero_le _⟩
  | append_singleton ns n ih =>
    obtain ⟨carries, bound⟩ := ih
    rw [sum_next, carried_next]
    cases fits : fitsInt64 (carried ns + n.toInt) with
    | true =>
      have range := (fits_iff _).mp fits
      rw [add_fits carries fits, carry, if_pos fits, Option.getD_some]
      refine ⟨?_, by omega⟩
      rw [← fits_to_int fits, Int64.ofInt_toInt]
      exact .int _
    | false =>
      obtain ⟨x, sum, next, within⟩ := add_wide carries bound fits
      rw [sum, Option.getD_some]
      exact ⟨next, within⟩

/-- The last integer brings the total into 64 bits, and the sum is right if the running total was. -/
theorem sum_next_iff (ns : List Int64) (n : Int64) (fits : fitsInt64 (total (ns ++ [n])) = true) :
    sum ((ns ++ [n]).map .int) = .int (Int64.ofInt (total (ns ++ [n]))) ↔
      carried ns = total ns := by
  obtain ⟨carries, bound⟩ := sum_carries ns
  rw [total_next] at fits ⊢
  rw [sum_next]
  constructor
  · intro exact
    cases near : fitsInt64 (carried ns + n.toInt) with
    | true =>
      rw [add_fits carries near, Option.getD_some, Value.int.injEq] at exact
      have same := congrArg Int64.toInt exact
      rw [fits_to_int fits, fits_to_int near] at same
      omega
    | false =>
      obtain ⟨x, sum, -⟩ := add_wide carries bound near
      rw [sum] at exact
      cases exact
  · intro same
    rw [same] at carries
    rw [add_fits carries fits, Option.getD_some]

private theorem sum_iff (ns : List Int64) (fits : fitsInt64 (total ns) = true) :
    sum (ns.map .int) = .int (Int64.ofInt (total ns)) ↔
      carried ns.dropLast = total ns.dropLast := by
  cases ns using List.reverseRecOn with
  | nil => exact iff_of_true rfl rfl
  | append_singleton ns n =>
    rw [List.dropLast_concat]
    exact sum_next_iff ns n fits

/-! ## Totals that nothing is lost on -/

/-- The total fits into 64 bits, or a double is equal to it. -/
def Kept (m : Int) : Prop :=
  fitsInt64 m = true ∨ nearestRank m = m

/-- Large doubles are far apart. -/
theorem kept_coarse (exact : nearestRank m = m) (large : 2 ^ 95 ≤ m.natAbs) :
    (2 ^ 43 : Int) ∣ m := by
  have same := nearest_rank_natAbs m
  rw [exact] at same
  have steps := quantum_dvd_round m.natAbs 1
  rw [← same, quantum_eq] at steps
  have bits : 95 ≤ m.natAbs.log2 := (Nat.le_log2 (by omega)).mpr large
  have coarse : 2 ^ 43 ∣ m.natAbs := (Nat.pow_dvd_pow 2 (by omega)).trans steps
  exact_mod_cast Int.natCast_dvd.mpr coarse

private theorem carry_kept (kept : Kept t) (next : Kept (t + n.toInt)) :
    carry t n.toInt = t + n.toInt := by
  have own := int64_range n
  unfold carry
  split_ifs with fits room
  · rfl
  · exact next.resolve_left fits
  · rw [decimal_limit_eq] at room
    have first : nearestRank t = t := kept.resolve_left fun small => by
      have range := (fits_iff _).mp small
      omega
    have second := next.resolve_left fits
    -- Both totals are multiples of a large power of two, and so is what lies between them.
    have apart : (2 ^ 43 : Int) ∣ n.toInt := by
      have difference := dvd_sub (kept_coarse second (by omega)) (kept_coarse first (by omega))
      rwa [add_sub_cancel_left] at difference
    obtain ⟨k, multiple⟩ := apart
    have magnitude : n.toInt.natAbs = k.natAbs * twoPow 43 := by
      rw [multiple, Int.natAbs_mul, Nat.mul_comm]
      rfl
    have few : k.natAbs ≤ twoPow 53 := by
      have value : twoPow 53 = 9007199254740992 := rfl
      omega
    have exact : nearestRank n.toInt = n.toInt := by
      apply nearest_rank_exact
      rw [magnitude]
      exact quantum_dvd few 43
    rw [exact, second]

private theorem carried_kept (kept : ∀ front, front <+: ns → Kept (total front)) :
    carried ns = total ns := by
  induction ns using List.reverseRecOn with
  | nil => rfl
  | append_singleton ns n ih =>
    have before := ih fun front isFront => kept front (isFront.trans (List.prefix_append ns [n]))
    have last := kept (ns ++ [n]) (List.prefix_refl _)
    rw [total_next] at last ⊢
    rw [carried_next, before]
    exact carry_kept (kept ns (List.prefix_append ns [n])) last

/-- The magnitudes of all integers together. -/
def magnitude (ns : List Int64) : Nat :=
  (ns.map fun n => n.toInt.natAbs).sum

private theorem total_le_magnitude (ns : List Int64) : (total ns).natAbs ≤ magnitude ns := by
  induction ns with
  | nil => exact Nat.zero_le _
  | cons n ns ih =>
    have first : total (n :: ns) = n.toInt + total ns := by simp [total]
    have second : magnitude (n :: ns) = n.toInt.natAbs + magnitude ns := by simp [magnitude]
    omega

private theorem kept_of_magnitude (small : magnitude ns < 2 ^ 63) (isFront : front <+: ns) :
    Kept (total front) := by
  obtain ⟨rest, rfl⟩ := isFront
  have parts : magnitude (front ++ rest) = magnitude front + magnitude rest := by simp [magnitude]
  have bound := total_le_magnitude front
  exact .inl ((fits_iff _).mpr (by omega))

/-- Integers whose total fits into 64 bits are summed exactly, in whatever order they stand, if and
only if the running total is exact before the last of them. It is if every running total fits or is
equal to a double, and in every order if the magnitudes together fit. -/
theorem sum_exact_iff (permuted : others.Perm ns) (fits : fitsInt64 (total ns) = true) :
    (sum (others.map .int) = .int (Int64.ofInt (total ns)) ↔
        carried others.dropLast = total others.dropLast) ∧
      ((∀ front, front <+: others → Kept (total front)) →
        sum (others.map .int) = .int (Int64.ofInt (total ns))) ∧
      (magnitude ns < 2 ^ 63 → sum (others.map .int) = .int (Int64.ofInt (total ns))) := by
  have same : total others = total ns := (permuted.map Int64.toInt).sum_eq
  have size : magnitude others = magnitude ns :=
    (permuted.map fun n : Int64 => n.toInt.natAbs).sum_eq
  rw [← same] at fits ⊢
  have kept (all : ∀ front, front <+: others → Kept (total front)) :
      sum (others.map .int) = .int (Int64.ofInt (total others)) :=
    (sum_iff others fits).mpr (carried_kept fun front isFront =>
      all front (isFront.trans (List.dropLast_prefix others)))
  refine ⟨sum_iff others fits, kept, fun small => kept fun front isFront => ?_⟩
  exact kept_of_magnitude (by rwa [size]) isFront

/-- A running total that is a power of two is kept beyond 64 bits too. -/
theorem sum_exact_iff_power :
    let ns : List Int64 := [9223372036854775807, 1, -1]
    ns.Perm [1, 9223372036854775807, -1] ∧
      fitsInt64 (total [1, 9223372036854775807, -1]) = true ∧
      sum (ns.map .int) = .int 9223372036854775807 := by
  intro ns
  have permuted : ns.Perm [1, 9223372036854775807, -1] := .swap _ _ _
  have fits : fitsInt64 (total [1, 9223372036854775807, -1]) = true := by decide
  exact ⟨permuted, fits, (sum_exact_iff permuted fits).1.mpr (by decide +kernel)⟩

/-- The greatest integer twice and once its negative: in this order the running total is rounded, and
the sum is no integer. In the other order nothing is lost. -/
theorem sum_rounds_total :
    let greatest : Int64 := 9223372036854775807
    total [greatest, greatest, -greatest] = 9223372036854775807 ∧
      (∀ n, sum ([greatest, greatest, -greatest].map .int) ≠ .int n) ∧
      sum ([greatest, -greatest, greatest].map .int) = .int greatest := by
  intro greatest
  have exact : total [greatest, -greatest, greatest] = 9223372036854775807 := by decide
  refine ⟨by decide, fun n same => ?rounded, ?kept⟩
  case rounded =>
    have kind : (match sum ([greatest, greatest, -greatest].map .int) with
      | .float _ => true
      | _ => false) = true := by decide +kernel
    rw [same] at kind
    cases kind
  case kept =>
    rw [(sum_iff _ (by rw [exact]; decide)).mpr (by decide +kernel), exact]
    rfl

end Value

end JsonQuery
