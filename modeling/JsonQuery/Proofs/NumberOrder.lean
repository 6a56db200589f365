import Mathlib
import JsonQuery.Proofs.Rounding
import JsonQuery.Value.Order

/-! The order of numbers against the rational numbers that they stand for. Integers are compared
with integers, and doubles with doubles, by their exact values; an integer is compared with a double
only after it has been rounded. Rounding keeps the order, so that it can do no more than make equal
what is not, and it does so only to integers of more than 53 bits. -/
namespace JsonQuery

/-- The rational number that a number stands for. Infinities, nan and other values stand for
none. -/
def Value.rational? : Value → Option ℚ
  | .int n => some n.toInt
  | .float (.finite negative units _) => some (signed negative units / unitsPerOne)
  | _ => none

/-- The double is the one nearest to the integer, but not equal to it. -/
def Value.Blurs : Value → Value → Prop
  | .int n, .float x =>
    (Double.ofInt n.toInt).compare? x = some .eq ∧
      (Value.int n).rational? ≠ (Value.float x).rational?
  | _, _ => False

/-- The place of a number on the line of units, where no integer is rounded. -/
def Value.place? : Value → Option Int
  | .int n => some (n.toInt * unitsPerOne)
  | .float (.finite negative units _) => some (signed negative units)
  | _ => none

variable {a b : Value}

private theorem rational_place (a : Value) :
    a.rational? = a.place?.map fun place : Int => (place : ℚ) / unitsPerOne := by
  have nonzero : (unitsPerOne : ℚ) ≠ 0 := by exact_mod_cast unitsPerOne_pos.ne'
  cases a with
  | int n =>
    rw [Value.rational?, Value.place?, Option.map_some, Int.cast_mul, Int.cast_natCast,
      mul_div_cancel_right₀ _ nonzero]
  | float x => cases x <;> rfl
  | _ => rfl

private theorem compare_strict_mono {α β : Type} [LinearOrder α] [LinearOrder β] {f : α → β}
    (strict : StrictMono f) (x y : α) : compare (f x) (f y) = compare x y := by
  rw [← cmp_eq_compare, strict.cmp_map_eq, cmp_eq_compare]

/-- Integers are ordered as their places are. -/
theorem compare_scaled (i j : Int) : compare (i * unitsPerOne) (j * unitsPerOne) = compare i j :=
  have positive : (0 : Int) < unitsPerOne := by exact_mod_cast unitsPerOne_pos
  compare_strict_mono (fun _ _ less => Int.mul_lt_mul_of_pos_right less positive) i j

/-- Rational numbers are ordered as their places are. -/
theorem compare_places (i j : Int) :
    compare ((i : ℚ) / unitsPerOne) ((j : ℚ) / unitsPerOne) = compare i j := by
  have positive : (0 : ℚ) < unitsPerOne := by exact_mod_cast unitsPerOne_pos
  have strict : StrictMono fun i : Int => (i : ℚ) / unitsPerOne :=
    fun _ _ less => div_lt_div_of_pos_right (by exact_mod_cast less) positive
  exact compare_strict_mono strict i j

/-- A double stands where it is. -/
theorem double_place (x : Double) : (Value.float x).place? = some i →
    x.rank? = some i ∧ nearestRank i = i := by
  intro known
  cases x with
  | finite negative units representable =>
    cases known
    refine ⟨rfl, nearest_rank_exact ?_⟩
    rw [natAbs_signed]
    exact representable.2
  | _ => cases known

/-- As a double a number stands at the nearest place. -/
theorem number_rank (known : a.place? = some i) :
    ∃ x, a.toDouble? = some x ∧ x.rank? = some (nearestRank i) := by
  cases a with
  | int n =>
    cases known
    exact ⟨_, rfl, of_int_rank n⟩
  | float x =>
    obtain ⟨rank, exact⟩ := double_place x known
    exact ⟨x, rfl, by rw [exact, rank]⟩
  | _ => cases known

theorem compare_ranks {x y : Double} (first : x.rank? = some i) (second : y.rank? = some j) :
    x.compare? y = some (compare i j) := by
  rw [Double.compare?, first, second]
  rfl

/-- The numbers are not both integers. -/
def Value.Mixed (a b : Value) : Prop :=
  ∀ n m, a = .int n → b ≠ .int m

theorem not_mixed (integers : ¬a.Mixed b) : ∃ n m, a = .int n ∧ b = .int m := by
  simpa [Value.Mixed] using integers

private theorem compare_mixed (mixed : a.Mixed b) (first : a.place? = some i)
    (second : b.place? = some j) :
    a.compare? b = some (compare (nearestRank i) (nearestRank j)) := by
  obtain ⟨x, double, rank⟩ := number_rank first
  obtain ⟨y, otherDouble, otherRank⟩ := number_rank second
  rw [← compare_ranks rank otherRank]
  unfold Value.compare?
  split
  · exact absurd rfl (mixed _ _ rfl)
  · cases first
  · rw [double, otherDouble]
    rfl

private theorem compare_integers (first : (Value.int n).place? = some i)
    (second : (Value.int m).place? = some j) :
    (Value.int n).compare? (.int m) = some (compare i j) := by
  cases first
  cases second
  rw [compare_scaled, Value.compare?]

private theorem rational_known (known : a.rational? = some p) :
    ∃ i : Int, a.place? = some i ∧ p = (i : ℚ) / unitsPerOne := by
  rw [rational_place] at known
  obtain ⟨i, place, rfl⟩ := Option.map_eq_some_iff.mp known
  exact ⟨i, place, rfl⟩

private theorem rational_eq_iff (i j : Int) : (i : ℚ) / unitsPerOne = j / unitsPerOne ↔ i = j := by
  rw [← compare_eq_iff_eq, compare_places, compare_eq_iff_eq]

private theorem blurs_iff (first : (Value.int n).place? = some i)
    (second : (Value.float x).place? = some j) :
    (Value.int n).Blurs (.float x) ↔ nearestRank i = nearestRank j ∧ i ≠ j := by
  have order : (Double.ofInt n.toInt).compare? x =
      some (compare (nearestRank i) (nearestRank j)) := by
    obtain ⟨rank, exact⟩ := double_place x second
    cases first
    exact compare_ranks (of_int_rank n) (by rw [exact, rank])
  have values : (Value.int n).rational? = (Value.float x).rational? ↔ i = j := by
    rw [rational_place, rational_place, first, second, Option.map_some, Option.map_some,
      Option.some.injEq, rational_eq_iff]
  rw [Value.Blurs, order, Option.some.injEq, compare_eq_iff_eq, ne_eq, values]

/-- Numbers are blurred where they are told apart but their nearest doubles are not. -/
theorem blurred_iff (mixed : a.Mixed b) (first : a.place? = some i) (second : b.place? = some j) :
    a.Blurs b ∨ b.Blurs a ↔ nearestRank i = nearestRank j ∧ i ≠ j := by
  cases a with
  | int n =>
    cases b with
    | int m => exact absurd rfl (mixed _ _ rfl)
    | float y =>
      rw [← blurs_iff first second]
      exact or_iff_left id
    | _ => cases second
  | float x =>
    cases b with
    | int m =>
      rw [eq_comm, ne_comm, ← blurs_iff second first]
      exact or_iff_right id
    | float y =>
      rw [(double_place x first).2, (double_place y second).2]
      exact ⟨fun never => (or_self_iff.mp never).elim, fun ⟨same, other⟩ => absurd same other⟩
    | _ => cases second
  | _ => cases first

/-- Integers are never blurred by one another. -/
theorem integers_not_blurred (n m : Int64) :
    ¬((Value.int n).Blurs (.int m) ∨ (Value.int m).Blurs (.int n)) :=
  or_self_iff.mp

/-- The order of two numbers is that of their places, but blurred ones count as equal. -/
theorem compare_blurred [Decidable (a.Blurs b ∨ b.Blurs a)] (first : a.place? = some i)
    (second : b.place? = some j) :
    a.compare? b = some (if a.Blurs b ∨ b.Blurs a then .eq else compare i j) := by
  by_cases mixed : a.Mixed b
  · rw [compare_mixed mixed first second, compare_nearest_rank]
    have blurred := blurred_iff mixed first second
    by_cases same : nearestRank i = nearestRank j
    · by_cases equal : i = j
      · have clear : ¬(a.Blurs b ∨ b.Blurs a) := fun blurs => (blurred.mp blurs).2 equal
        rw [if_pos same, if_neg clear, compare_eq_iff_eq.mpr equal]
      · rw [if_pos same, if_pos (blurred.mpr ⟨same, equal⟩)]
    · have clear : ¬(a.Blurs b ∨ b.Blurs a) := fun blurs => same (blurred.mp blurs).1
      rw [if_neg same, if_neg clear]
  · obtain ⟨n, m, rfl, rfl⟩ := not_mixed mixed
    rw [if_neg (integers_not_blurred n m), compare_integers first second]

private theorem blurred_apart (first : a.place? = some i) (second : b.place? = some j)
    (blurs : a.Blurs b ∨ b.Blurs a) : i ≠ j := by
  by_cases mixed : a.Mixed b
  · exact ((blurred_iff mixed first second).mp blurs).2
  · obtain ⟨n, m, rfl, rfl⟩ := not_mixed mixed
    exact absurd blurs (integers_not_blurred n m)

/-- An integer of at most 53 bits has a place that a double has. -/
theorem small_not_blurred {n : Int64} (small : n.toInt.natAbs ≤ twoPow 53)
    (first : (Value.int n).place? = some i) (second : b.place? = some j) :
    ¬((Value.int n).Blurs b ∨ b.Blurs (.int n)) := by
  have exact : nearestRank i = i := by
    cases first
    apply nearest_rank_exact
    rw [Int.natAbs_mul, Int.natAbs_natCast, unitsPerOne_eq]
    exact quantum_dvd small 1074
  intro blurs
  cases b with
  | int m => exact integers_not_blurred n m blurs
  | float x =>
    have other := (double_place x second).2
    have mixed : (Value.int n).Mixed (.float x) := nofun
    have same := (blurred_iff mixed first second).mp blurs
    rw [exact, other] at same
    exact same.2 same.1
  | _ => cases second

/-- A number equals another one if their order says so. -/
theorem deep_eq_number (known : a.place? = some i) (b : Value) :
    a.deepEq b = (a.compare? b == some .eq) := by
  cases a with
  | int n => rw [Value.deepEq]
  | float x => rw [Value.deepEq]
  | _ => cases known

/-- The order of numbers across their two kinds is the order of the rational numbers that they
stand for, except where a double is the nearest to an integer without being equal to it: such a
pair counts as equal. No integer of at most 53 bits is blurred in this way. -/
theorem Value.compare_exact_iff (first : a.rational? = some p) (second : b.rational? = some q) :
    (a.compare? b = some (compare p q) ↔ ¬(a.Blurs b ∨ b.Blurs a)) ∧
      (a.Blurs b ∨ b.Blurs a → a.compare? b = some .eq) ∧
      (a.deepEq b = true ↔ p = q ∨ a.Blurs b ∨ b.Blurs a) ∧
      ∀ n : Int64, a = .int n ∨ b = .int n → n.toInt.natAbs ≤ twoPow 53 →
        ¬(a.Blurs b ∨ b.Blurs a) := by
  classical
  obtain ⟨i, place, rfl⟩ := rational_known first
  obtain ⟨j, otherPlace, rfl⟩ := rational_known second
  have order := compare_blurred place otherPlace
  rw [compare_places, deep_eq_number place, beq_iff_eq, rational_eq_iff, order]
  refine ⟨?agrees, fun blurs => by rw [if_pos blurs], ?equals, ?small⟩
  case agrees =>
    constructor
    · intro agrees blurs
      rw [if_pos blurs, Option.some.injEq, eq_comm, compare_eq_iff_eq] at agrees
      exact blurred_apart place otherPlace blurs agrees
    · intro clear
      rw [if_neg clear]
  case equals =>
    split_ifs with blurs
    · exact ⟨fun _ => .inr blurs, fun _ => rfl⟩
    · rw [Option.some.injEq, compare_eq_iff_eq]
      exact (or_iff_left blurs).symm
  case small =>
    rintro n (rfl | rfl) small blurs
    · exact absurd blurs (small_not_blurred small place otherPlace)
    · exact absurd blurs.symm (small_not_blurred small otherPlace place)

theorem Value.compare_exact_iff_near :
    let n : Value := .int 9007199254740993
    let x : Value := .float (.ofInt 9007199254740994)
    n.rational? = some 9007199254740993 ∧ x.rational? = some 9007199254740994 ∧
      n.compare? x = some (compare (9007199254740993 : ℚ) 9007199254740994) := by
  intro n x
  have first : n.rational? = some 9007199254740993 := by decide +kernel
  have second : x.rational? = some 9007199254740994 := by decide +kernel
  have clear : ¬(n.Blurs x ∨ x.Blurs n) := by
    rintro (⟨same, -⟩ | never)
    · revert same
      decide +kernel
    · exact never
  exact ⟨first, second, (compare_exact_iff first second).1.mpr clear⟩

/-- Beyond 53 bits two integers may equal the same double, so that equality is not transitive. -/
theorem Value.compare_blurs_integers :
    let n : Value := .int 9007199254740993
    let x : Value := .float (.ofInt 9007199254740992)
    n.rational? = some 9007199254740993 ∧ x.rational? = some 9007199254740992 ∧
      n.compare? x ≠ some (compare (9007199254740993 : ℚ) 9007199254740992) ∧
      n.deepEq x = true ∧ x.deepEq (.int 9007199254740992) = true ∧
      n.deepEq (.int 9007199254740992) = false := by
  decide +kernel
end JsonQuery
