import Mathlib.Data.List.Forall2
import JsonQuery.Eval

/-! Slices by offsets. The bounds are those of unbounded integers, and the walk takes the offsets at
multiples of the step from the first one to the stop. Its sums are made within 64 bits; one that does
not fit lies beyond the stop, and so the walk has then met all its items. -/
namespace JsonQuery
namespace Slice

/-! ## Bounds -/

/-- The step as an integer, one when there is none. -/
def stride (step : Option Int64) : Int :=
  (step.map Int64.toInt).getD 1

/-- The offset of a bound over unbounded integers. A negative one counts from the end; on the way up
offsets lie between zero and the length, and on the way down each one place earlier. -/
def clamped (length step : Int) (bound : Int64) : Int :=
  let offset := if bound.toInt < 0 then bound.toInt + length else bound.toInt
  if 0 < step then max 0 (min offset length) else max (-1) (min offset (length - 1))

/-- Where a walk with this step begins: without a bound, at the end that it leads away from. -/
def first (length step : Int) (start : Option Int64) : Int :=
  (start.map (clamped length step)).getD (if 0 < step then 0 else length - 1)

/-- What a walk with this step does not reach: without a bound, the end that it leads to. -/
def last (length step : Int) (stop : Option Int64) : Int :=
  (stop.map (clamped length step)).getD (if 0 < step then length else -1)

variable {length step : Int}

private theorem stride_ne_zero {step : Option Int64} (moves : step ≠ some 0) : stride step ≠ 0 := by
  cases step with
  | none => decide
  | some n => exact fun zero => moves (congrArg some (Int64.toInt_inj.mp zero))

private theorem clamped_between (whole : 0 ≤ length) (step : Int) (bound : Int64) :
    (0 < step → 0 ≤ clamped length step bound ∧ clamped length step bound ≤ length) ∧
      (¬0 < step → -1 ≤ clamped length step bound ∧ clamped length step bound < length) := by
  unfold clamped
  constructor
  · intro up
    rw [if_pos up]
    omega
  · intro down
    rw [if_neg down]
    omega

private theorem slice_bound_clamped (whole : 0 ≤ length) (moves : step ≠ 0) (bound : Option Int64)
    (default : Int) :
    sliceBound length step bound default = (bound.map (clamped length step)).getD default := by
  cases bound with
  | none => rfl
  | some b =>
    simp only [sliceBound, clamped, Option.map_some, Option.getD_some]
    split_ifs <;> omega

/-- A slice is the walk from its first offset to its last. -/
theorem slice_items_walk {step : Option Int64} (moves : step ≠ some 0) (items : List Value)
    (start stop : Option Int64) :
    sliceItems items start stop step =
      .arr (walk items (stride step) (last items.length (stride step) stop) items.length
        (first items.length (stride step) start)) := by
  have apart := stride_ne_zero moves
  have whole : 0 ≤ (items.length : Int) := Int.natCast_nonneg _
  rw [sliceItems, show (step.map Int64.toInt).getD 1 = stride step from rfl]
  dsimp only
  rw [if_neg apart]
  simp only [slice_bound_clamped whole apart, first, last]
  by_cases down : stride step < 0
  · rw [if_pos down, if_neg (Int.lt_asymm down), if_neg (Int.lt_asymm down)]
  · have up : 0 < stride step := by omega
    rw [if_neg down, if_pos up, if_pos up]

/-! ## Rounds -/

/-- The offset stands before the stop, in the direction of the step. -/
def Before (step stop i : Int) : Prop :=
  (0 < step ∧ i < stop) ∨ (step < 0 ∧ stop < i)

instance (step stop i : Int) : Decidable (Before step stop i) :=
  inferInstanceAs (Decidable (_ ∨ _))

/-- The offsets at which the loop from an offset takes an item. It ends when the offset is no longer
before the stop, or when the next one does not fit into 64 bits. -/
inductive Rounds (step stop : Int) : Int → List Int → Prop where
  | done (reached : ¬Before step stop i) : Rounds step stop i []
  | last (before : Before step stop i) (wide : fitsInt64 (i + step) = false) :
      Rounds step stop i [i]
  | next (before : Before step stop i) (fits : fitsInt64 (i + step) = true)
      (rest : Rounds step stop (i + step) visited) : Rounds step stop i (i :: visited)

variable {stop i : Int} {visited : List Int}

/-- The loop stays among the items: on the way up it is past their begin and its stop is not past
their end, and on the way down the other way round. -/
def Within (length step stop i : Int) : Prop :=
  (0 < step ∧ 0 ≤ i ∧ stop ≤ length) ∨ (step < 0 ∧ i < length ∧ -1 ≤ stop)

private theorem within_first (whole : 0 ≤ length) (moves : step ≠ 0) (start stop : Option Int64) :
    Within length step (last length step stop) (first length step start) := by
  unfold Within first last
  have limits := clamped_between whole step
  by_cases up : 0 < step
  · refine .inl ⟨up, ?_, ?_⟩
    · cases start with
      | none => simp [up]
      | some bound => exact ((limits bound).1 up).1
    · cases stop with
      | none => simp [up]
      | some bound => exact ((limits bound).1 up).2
  · refine .inr ⟨by omega, ?_, ?_⟩
    · cases start with
      | none =>
        rw [Option.map_none, Option.getD_none, if_neg up]
        exact Int.sub_one_lt_of_le (Int.le_refl length)
      | some bound => exact ((limits bound).2 up).2
    · cases stop with
      | none => simp [up]
      | some bound => exact ((limits bound).2 up).1

private theorem within_next (within : Within length step stop i) :
    Within length step stop (i + step) := by
  unfold Within at within ⊢
  omega

private theorem before_inside (within : Within length step stop i) (before : Before step stop i) :
    0 ≤ i ∧ i < length := by
  unfold Within at within
  unfold Before at before
  omega

/-- The stop fits into 64 bits, and so a sum that does not is past it. -/
theorem wide_past (inMemory : length ≤ Int64.maxValue.toInt) (within : Within length step stop i)
    (wide : fitsInt64 (i + step) = false) : ¬Before step stop (i + step) := by
  have outside := mt (fits_between (i + step)).mpr (Bool.eq_false_iff.mp wide)
  have least : Int64.minValue.toInt < -1 := by decide
  unfold Within at within
  unfold Before
  omega

private theorem past_further (past : ¬Before step stop i) (k : Nat) :
    ¬Before step stop (i + k * step) := by
  induction k with
  | zero => simpa using past
  | succ k ih =>
    have sum : i + (k + 1 : Nat) * step = i + k * step + step := by
      rw [Int.natCast_succ, Int.add_mul, Int.one_mul, Int.add_assoc]
    rw [sum]
    unfold Before at ih ⊢
    omega

/-- The loop ends, after a round at most for each place between the offset and the stop. -/
theorem rounds_end (rounds : Nat)
    (near : (0 < step → stop - i ≤ rounds) ∧ (step < 0 → i - stop ≤ rounds)) :
    ∃ visited, Rounds step stop i visited ∧ visited.length ≤ rounds := by
  -- A round brings the offset nearer to the stop by the step, and so by one place at least.
  induction rounds generalizing i with
  | zero =>
    refine ⟨[], .done ?_, Nat.le_refl 0⟩
    unfold Before
    omega
  | succ rounds ih =>
    by_cases before : Before step stop i
    · cases fits : fitsInt64 (i + step) with
      | false => exact ⟨[i], .last before fits, Nat.le_add_left 1 rounds⟩
      | true =>
        have nearer : (0 < step → stop - (i + step) ≤ rounds) ∧
            (step < 0 → i + step - stop ≤ rounds) := by omega
        obtain ⟨visited, rest, few⟩ := ih nearer
        exact ⟨i :: visited, .next before fits rest, Nat.succ_le_succ few⟩
    · exact ⟨[], .done before, Nat.zero_le _⟩

private theorem rounds_few (within : Within length step stop i) :
    ∃ visited, Rounds step stop i visited ∧ visited.length ≤ length.toNat := by
  apply rounds_end
  unfold Within at within
  omega

/-- Every round is at an offset of an item, and a sum that does not fit is not needed. -/
theorem rounds_inside (inMemory : length ≤ Int64.maxValue.toInt)
    (run : Rounds step stop i visited) (within : Within length step stop i) :
    ∀ j ∈ visited, (0 ≤ j ∧ j < length) ∧
      (fitsInt64 (j + step) = true ∨ ¬Before step stop (j + step)) := by
  induction run with
  | done => exact List.forall_mem_nil _
  | last before wide =>
    rw [List.forall_mem_singleton]
    exact ⟨before_inside within before, .inr (wide_past inMemory within wide)⟩
  | next before fits _ ih =>
    rw [List.forall_mem_cons]
    exact ⟨⟨before_inside within before, .inl fits⟩, ih (within_next within)⟩

/-- The rounds are at the multiples of the step before the stop. -/
theorem rounds_at (inMemory : length ≤ Int64.maxValue.toInt)
    (run : Rounds step stop i visited) (within : Within length step stop i) (k : Nat) (j : Int) :
    visited[k]? = some j ↔ j = i + k * step ∧ Before step stop j := by
  have start (i : Int) : i + (0 : Nat) * step = i := by simp
  have later (i : Int) (k : Nat) : i + (k + 1 : Nat) * step = i + step + k * step := by
    rw [Int.natCast_succ, Int.add_mul, Int.one_mul]
    omega
  induction run generalizing k with
  | done reached =>
    refine ⟨nofun, ?_⟩
    rintro ⟨rfl, before⟩
    exact absurd before (past_further reached k)
  | @last i before wide =>
    cases k with
    | zero =>
      rw [List.getElem?_cons_zero, Option.some_inj, start]
      exact ⟨fun same => ⟨same.symm, same ▸ before⟩, fun both => both.1.symm⟩
    | succ k =>
      refine ⟨nofun, ?_⟩
      rintro ⟨rfl, further⟩
      rw [later] at further
      exact absurd further (past_further (wide_past inMemory within wide) k)
  | @next i visited before fits _ ih =>
    cases k with
    | zero =>
      rw [List.getElem?_cons_zero, Option.some_inj, start]
      exact ⟨fun same => ⟨same.symm, same ▸ before⟩, fun both => both.1.symm⟩
    | succ k =>
      rw [List.getElem?_cons_succ, later]
      exact ih (within_next within) k

/-! ## The walk -/

variable {items : List Value}

private theorem walk_reached (reached : ¬Before step stop i) (items : List Value) (steps : Nat) :
    walk items step stop steps i = [] := by
  cases steps with
  | zero => rfl
  | succ steps => exact if_neg reached

private theorem walk_before (before : Before step stop i) (there : 0 ≤ i ∧ i < items.length)
    (steps : Nat) :
    ∃ item, items[i.toNat]? = some item ∧ walk items step stop (steps + 1) i =
      item :: if fitsInt64 (i + step) then walk items step stop steps (i + step) else [] := by
  have below : i.toNat < items.length := by omega
  refine ⟨items[i.toNat], List.getElem?_eq_getElem below, (if_pos before).trans ?_⟩
  dsimp only
  rw [if_neg (Int.not_lt.mpr there.1), List.getElem?_eq_getElem below]
  rfl

/-- The walk takes the item of every round, when it is allowed as many steps. -/
theorem walk_rounds (run : Rounds step stop i visited)
    (inside : ∀ j ∈ visited, 0 ≤ j ∧ j < items.length) {steps : Nat}
    (enough : visited.length ≤ steps) :
    List.Forall₂ (fun j item => items[j.toNat]? = some item) visited
      (walk items step stop steps i) := by
  induction run generalizing steps with
  | done reached =>
    rw [walk_reached reached]
    exact .nil
  | last before wide =>
    cases steps with
    | zero => cases enough
    | succ steps =>
      obtain ⟨item, there, taken⟩ := walk_before before (inside _ List.mem_cons_self) steps
      rw [taken, wide]
      exact .cons there .nil
  | next before fits _ ih =>
    obtain ⟨here, others⟩ := List.forall_mem_cons.mp inside
    cases steps with
    | zero => cases enough
    | succ steps =>
      obtain ⟨item, there, taken⟩ := walk_before before here steps
      rw [taken, fits]
      exact .cons there (ih others (Nat.le_of_succ_le_succ enough))

/-- Counting a negative bound from the end stays within 64 bits. -/
theorem bound_fits (whole : 0 ≤ length) (inMemory : length ≤ Int64.maxValue.toInt)
    {bound : Int64} (negative : bound.toInt < 0) : fitsInt64 (bound.toInt + length) = true := by
  have above : Int64.minValue.toInt ≤ bound.toInt := bound.minValue_le_toInt
  rw [fits_between]
  omega

/-- A slice has the items at the first offset and every further multiple of the step before the last
one, in this order. The loop that takes them visits no offset outside the items and has at most one
round for each of them. The sums it makes fit into 64 bits, apart from one that leads past the last
offset. No list in memory has more items than the greatest 64-bit integer. -/
theorem slice_at_multiples (items : List Value) (start stop step : Option Int64)
    (moves : step ≠ some 0) (inMemory : items.length ≤ Int64.maxValue.toInt) :
    let length : Int := items.length
    let stride := stride step
    let first := first length stride start
    let last := last length stride stop
    ∃ visited taken, sliceItems items start stop step = .arr taken ∧
      List.Forall₂ (fun i item => items[i.toNat]? = some item) visited taken ∧
      (∀ (k : Nat) i, visited[k]? = some i ↔ i = first + k * stride ∧ Before stride last i) ∧
      Rounds stride last first visited ∧ visited.length ≤ items.length ∧
      (∀ i ∈ visited, (0 ≤ i ∧ i < length) ∧
        (fitsInt64 (i + stride) = true ∨ ¬Before stride last (i + stride))) ∧
      ∀ bound : Int64, bound.toInt < 0 → fitsInt64 (bound.toInt + length) = true := by
  intro length stride first last
  have whole : 0 ≤ length := Int.natCast_nonneg _
  have within : Within length stride last first :=
    within_first whole (stride_ne_zero moves) start stop
  obtain ⟨visited, run, few⟩ := rounds_few within
  have inside := rounds_inside inMemory run within
  have taken := walk_rounds run (fun i member => (inside i member).1) few
  exact ⟨visited, _, slice_items_walk moves items start stop, taken, rounds_at inMemory run within,
    run, few, inside, fun _ => bound_fits whole inMemory⟩

/-- A step so wide that the second offset does not fit. -/
theorem slice_at_multiples_wide :
    let items := [Value.str "a", .str "b", .str "c"]
    let most := Int64.maxValue
    some most ≠ some 0 ∧ items.length ≤ most.toInt ∧ fitsInt64 (1 + most.toInt) = false ∧
      sliceItems items (some (-2)) (some most) (some most) = .arr [.str "b"] := by
  intro items most
  have moves : some most ≠ some 0 := by decide
  have inMemory : items.length ≤ most.toInt := by decide
  have wide : fitsInt64 (1 + most.toInt) = false := by decide
  refine ⟨moves, inMemory, wide, ?_⟩
  obtain ⟨visited, taken, sliced, matched, -, run, -⟩ :=
    slice_at_multiples items (some (-2)) (some most) (some most) moves inMemory
  rw [sliced]
  have once : visited = [1] := by
    cases run with
    | done reached => exact absurd (by decide) reached
    | last => rfl
    | next _ fits => exact absurd (fits.symm.trans wide) (by decide)
  subst once
  obtain ⟨item, _, there, rest, rfl⟩ := List.forall₂_cons_left_iff.mp matched
  cases rest
  cases there
  rfl

end Slice

end JsonQuery
