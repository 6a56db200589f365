import JsonQuery.Proofs.JsonTrees
import JsonQuery.Proofs.KeyOrder
import JsonQuery.Proofs.KeyedSorting

/-! Equality of values as a relation. Objects are equal when they have the same keys with equal
values; with distinct keys this may be read from either side, although one side only is searched. A
value equals itself unless it holds a nan. Where two values have an order, they are equal in one of
its three cases, so that the comparison operators exclude one another. -/
namespace JsonQuery

namespace Value

/-- The value itself, and everything that it holds at any depth. -/
inductive Within (part : Value) : Value → Prop where
  | whole : Within part part
  | item (member : item ∈ items) (inner : Within part item) : Within part (.arr items)
  | entry (member : e ∈ entries) (inner : Within part e.2) : Within part (.obj entries)

/-- No object within the value has a key twice. -/
def KeysDistinct (v : Value) : Prop :=
  ∀ entries, Within (.obj entries) v → Dict.Distinct entries

variable {a b : Value}

private theorem within_alone (other : ∀ items, a ≠ .arr items)
    (another : ∀ entries, a ≠ .obj entries) :
    Within part a ↔ part = a := by
  constructor
  · rintro (_ | _ | _)
    · rfl
    · exact absurd rfl (other _)
    · exact absurd rfl (another _)
  · rintro rfl
    exact .whole

@[simp] theorem within_arr : Within part (.arr items) ↔
    part = .arr items ∨ ∃ item ∈ items, Within part item := by
  constructor
  · rintro (_ | ⟨member, inner⟩)
    · exact .inl rfl
    · exact .inr ⟨_, member, inner⟩
  · rintro (rfl | ⟨item, member, inner⟩)
    · exact .whole
    · exact .item member inner

@[simp] theorem within_obj : Within part (.obj entries) ↔
    part = .obj entries ∨ ∃ e ∈ entries, Within part e.2 := by
  constructor
  · rintro (_ | _ | ⟨member, inner⟩)
    · exact .inl rfl
    · exact .inr ⟨_, member, inner⟩
  · rintro (rfl | ⟨e, member, inner⟩)
    · exact .whole
    · exact .entry member inner

@[simp] theorem keys_distinct_arr :
    (arr items).KeysDistinct ↔ ∀ item ∈ items, item.KeysDistinct := by
  simp only [KeysDistinct, within_arr, reduceCtorEq, false_or]
  exact ⟨fun all item member entries inner => all entries ⟨item, member, inner⟩,
    fun each entries ⟨item, member, inner⟩ => each item member entries inner⟩

@[simp] theorem keys_distinct_obj : (obj entries).KeysDistinct ↔
    Dict.Distinct entries ∧ ∀ e ∈ entries, e.2.KeysDistinct := by
  simp only [KeysDistinct, within_obj, obj.injEq]
  constructor
  · intro all
    exact ⟨all entries (.inl rfl), fun e member inside inner => all inside (.inr ⟨e, member, inner⟩)⟩
  · rintro ⟨distinct, each⟩ inside (rfl | ⟨e, member, inner⟩)
    · exact distinct
    · exact each e member inside inner

/-! ## What makes two values equal -/

/-- Two values that have an order are equal when the order says so. -/
theorem deep_eq_ordered (known : a.compare? b = some order) : a.deepEq b = (order == .eq) := by
  cases a with
  | int n => rw [deepEq, known, Option.some_beq_some]
  | float x => rw [deepEq, known, Option.some_beq_some]
  | str s =>
    cases b with
    | str t =>
      cases known
      rw [deepEq, Bool.eq_iff_iff, beq_iff_eq, beq_iff_eq, compare_eq_iff_eq]
    | _ => cases known
  | _ => cases b <;> cases known

private theorem equal_ordered (same : a.compare? b = some .eq) : a.deepEq b = true :=
  deep_eq_ordered same

private theorem items_equal_iff : itemsEq as bs = true ↔
    List.Forall₂ (fun a b => a.deepEq b = true) as bs := by
  induction as generalizing bs with
  | nil => cases bs <;> simp [itemsEq]
  | cons a as ih => cases bs <;> simp [itemsEq, ih]

/-- With distinct keys and as many entries on both sides it is enough to search one side. -/
theorem objects_equal_iff (distinct : Dict.Distinct as) (otherDistinct : Dict.Distinct bs) :
    (obj as).deepEq (.obj bs) = true ↔ (Dict.keys as).Perm (Dict.keys bs) ∧
      ∀ key a b, (key, a) ∈ as → (key, b) ∈ bs → a.deepEq b = true := by
  have found : entriesFound as bs = true ↔
      ∀ key a, (key, a) ∈ as → ∃ b, (key, b) ∈ bs ∧ a.deepEq b = true := by
    simp [entries_found_all, Option.any_eq_true, Dict.find_eq_iff otherDistinct]
  rw [deepEq, Bool.and_eq_true, beq_iff_eq, found]
  constructor
  · rintro ⟨length, each⟩
    have known : Dict.keys as ⊆ Dict.keys bs := by
      intro key member
      obtain ⟨⟨key, a⟩, inside, rfl⟩ := List.mem_map.mp member
      obtain ⟨b, there, -⟩ := each key a inside
      exact List.mem_map.mpr ⟨_, there, rfl⟩
    refine ⟨(List.subperm_of_subset distinct known).perm_of_length_le ?_, ?_⟩
    · simp [Dict.keys, length]
    · intro key a b first second
      obtain ⟨other, there, equal⟩ := each key a first
      have same := ((Dict.find_eq_iff otherDistinct).mpr there).symm.trans
        ((Dict.find_eq_iff otherDistinct).mpr second)
      cases same
      exact equal
  · rintro ⟨keys, each⟩
    refine ⟨by simpa [Dict.keys] using keys.length_eq, fun key a inside => ?_⟩
    have member : key ∈ Dict.keys bs := keys.mem_iff.mp (List.mem_map.mpr ⟨_, inside, rfl⟩)
    obtain ⟨⟨key, b⟩, there, rfl⟩ := List.mem_map.mp member
    exact ⟨b, there, each key a b inside there⟩

/-! ## Equality as a relation -/

private theorem equal_symm (a : Value) : ∀ b : Value, a.KeysDistinct → b.KeysDistinct →
    a.deepEq b = true → b.deepEq a = true := by
  have ordered {a b : Value} (same : (a.compare? b == some .eq) = true) : b.deepEq a = true := by
    have swapped := compare_swapped a b
    rw [beq_iff_eq.mp same] at swapped
    exact equal_ordered swapped
  induction a using inside_induction with
  | null =>
    intro b _ _ equal
    cases b with
    | null => rfl
    | _ => cases equal
  | bool p =>
    intro b _ _ equal
    cases b with
    | bool q =>
      rw [deepEq, beq_iff_eq] at equal ⊢
      exact equal.symm
    | _ => cases equal
  | int n =>
    intro b _ _ equal
    rw [deepEq] at equal
    exact ordered equal
  | float x =>
    intro b _ _ equal
    rw [deepEq] at equal
    exact ordered equal
  | str s =>
    intro b _ _ equal
    cases b with
    | str t =>
      rw [deepEq, beq_iff_eq] at equal ⊢
      exact equal.symm
    | _ => cases equal
  | arr as each =>
    intro b distinct otherDistinct equal
    cases b with
    | arr bs =>
      rw [keys_distinct_arr] at distinct otherDistinct
      rw [deepEq, items_equal_iff] at equal ⊢
      refine (List.forall₂_iff_get.mpr ⟨equal.length_eq.symm, fun i first second => ?_⟩)
      have here := (List.forall₂_iff_get.mp equal).2 i second first
      exact each _ (List.get_mem ..) _ (distinct _ (List.get_mem ..))
        (otherDistinct _ (List.get_mem ..)) here
    | _ => cases equal
  | obj as each =>
    intro b distinct otherDistinct equal
    cases b with
    | obj bs =>
      rw [keys_distinct_obj] at distinct otherDistinct
      rw [objects_equal_iff distinct.1 otherDistinct.1] at equal
      rw [objects_equal_iff otherDistinct.1 distinct.1]
      refine ⟨equal.1.symm, fun key b a first second => ?_⟩
      exact each (key, a) second b (distinct.2 _ second) (otherDistinct.2 _ first)
        (equal.2 key a b second first)
    | _ => cases equal

private theorem equal_comm (distinct : a.KeysDistinct) (otherDistinct : b.KeysDistinct) :
    a.deepEq b = b.deepEq a := by
  rw [Bool.eq_iff_iff]
  exact ⟨equal_symm a b distinct otherDistinct, equal_symm b a otherDistinct distinct⟩

/-- A double equals itself if it has a place among the doubles, and only nan has none. -/
theorem double_equal_self (x : Double) : (float x).deepEq (.float x) = true ↔ x ≠ .nan := by
  have compares : (float x).compare? (.float x) = x.compare? x := rfl
  rw [deepEq, compares]
  cases x with
  | nan => simp [Double.compare?, Double.rank?]
  | finite | infinite => simp [Double.compare?, Double.rank?]

/-- Only a nan differs from itself, and with it everything that holds one. -/
theorem equal_self_iff (a : Value) : a.KeysDistinct →
    (a.deepEq a = true ↔ ¬Within (.float .nan) a) := by
  induction a using inside_induction with
  | null | bool | str => simp [within_alone, deepEq]
  | int n => simp [within_alone, deepEq, compare?]
  | float x =>
    have alone : Within (.float .nan) (.float x) ↔ float .nan = .float x :=
      within_alone (by simp) (by simp)
    rw [alone, double_equal_self, float.injEq]
    exact fun _ => ne_comm
  | arr items each =>
    intro distinct
    rw [keys_distinct_arr] at distinct
    rw [deepEq, items_equal_iff, List.forall₂_same]
    simp only [within_arr, reduceCtorEq, false_or, not_exists, not_and]
    exact forall₂_congr fun item member => each item member (distinct item member)
  | obj entries each =>
    intro distinct
    rw [keys_distinct_obj] at distinct
    rw [objects_equal_iff distinct.1 distinct.1]
    simp only [within_obj, reduceCtorEq, false_or, not_exists, not_and]
    constructor
    · rintro ⟨-, equal⟩ e member
      exact (each e member (distinct.2 e member)).mp (equal e.1 e.2 e.2 member member)
    · refine fun known => ⟨.refl _, fun key a b first second => ?_⟩
      -- One key has one value, so that each value is only held against itself.
      have same := ((Dict.find_eq_iff distinct.1).mpr first).symm.trans
        ((Dict.find_eq_iff distinct.1).mpr second)
      cases same
      exact (each (key, a) first (distinct.2 _ first)).mpr (known _ first)

/-! ## The comparison operators -/

private theorem compare_ordering (ordering : op.isOrdering = true) (a b : Value) :
    compareValues op a b = (a.compare? b).elim .null fun order => .bool (op.holds order) := by
  unfold compareValues
  cases op with
  | equal | notEqual => cases ordering
  | _ => cases a.compare? b <;> rfl

/-- An operator gives the same as its mirror image does on the values the other way round. -/
theorem compare_mirrored (ordering : op.isOrdering = true) (otherOrdering : other.isOrdering = true)
    (mirrors : ∀ order, op.holds order = other.holds order.swap) (a b : Value) :
    compareValues op a b = compareValues other b a := by
  rw [compare_ordering ordering, compare_ordering otherOrdering, compare_swapped a b]
  cases a.compare? b with
  | none => rfl
  | some order => exact congrArg bool (mirrors order)

private theorem ordering_null_iff (ordering : op.isOrdering = true) :
    compareValues op a b = .null ↔ a.compare? b = none := by
  rw [compare_ordering ordering]
  cases a.compare? b <;> simp

/-- Of two values that have an order, the first is less, equal or greater, and only one of these. -/
theorem one_comparison (known : a.compare? b = some order) :
    ∃! one, one ∈ [.less, .equal, .greater] ∧ compareValues one a b = .bool true := by
  have equal : compareValues .equal a b = .bool (order == .eq) :=
    congrArg bool (deep_eq_ordered known)
  have less : compareValues .less a b = .bool (order == .lt) := by
    rw [compare_ordering rfl, known]
    rfl
  have greater : compareValues .greater a b = .bool (order == .gt) := by
    rw [compare_ordering rfl, known]
    rfl
  cases order with
  | lt => exact ⟨.less, by simp [less], by simp [equal, greater]⟩
  | eq => exact ⟨.equal, by simp [equal], by simp [less, greater]⟩
  | gt => exact ⟨.greater, by simp [greater], by simp [less, equal]⟩

/-- For values in which every object has distinct keys, equality is symmetric, fails between a value
and itself only for a nan within it, and does not see the order of keys on either side. Of the
comparison operators, inequality is the negation of equality, each ordering is the mirror image of
another, and all four are null for the same values; for any others exactly one of less, equal and
greater holds. -/
theorem equality_lawful (distinct : a.KeysDistinct) (otherDistinct : b.KeysDistinct) :
    a.deepEq b = b.deepEq a ∧ (a.deepEq a = true ↔ ¬Within (.float .nan) a) ∧
      (∀ c d, a.Alike c → b.Alike d → c.deepEq d = a.deepEq b) ∧
      (compareValues .equal a b = .bool (a.deepEq b) ∧
        compareValues .notEqual a b = .bool (!a.deepEq b)) ∧
      (compareValues .less a b = compareValues .greater b a ∧
        compareValues .lessEqual a b = compareValues .greaterEqual b a) ∧
      (∀ op other, op.isOrdering = true → other.isOrdering = true →
        (compareValues op a b = .null ↔ compareValues other a b = .null)) ∧
      ∀ op, op.isOrdering = true → compareValues op a b ≠ .null →
        (compareValues op a b = .bool true ∨ compareValues op a b = .bool false) ∧
          ∃! one, one ∈ [.less, .equal, .greater] ∧ compareValues one a b = .bool true := by
  refine ⟨equal_comm distinct otherDistinct, equal_self_iff a distinct, ?reordered, ⟨rfl, rfl⟩,
    ⟨compare_mirrored rfl rfl ?less a b, compare_mirrored rfl rfl ?atMost a b⟩, ?null, ?one⟩
  case reordered =>
    intro c d left right
    exact (alike_deepEq a c b d left right).symm
  case less | atMost => exact fun order => by cases order <;> rfl
  case null =>
    intro op other ordering otherOrdering
    rw [ordering_null_iff ordering, ordering_null_iff otherOrdering]
  case one =>
    intro op ordering known
    rw [ne_eq, ordering_null_iff ordering] at known
    obtain ⟨order, known⟩ := Option.ne_none_iff_exists'.mp known
    refine ⟨?_, one_comparison known⟩
    rw [compare_ordering ordering, known, Option.elim_some]
    cases op.holds order with
    | true => exact .inl rfl
    | false => exact .inr rfl

/-- Keys stand in any order and numbers are of either kind; a nan inside an object is seen. -/
theorem equality_lawful_nested :
    let x := arr [.int 1, .null]
    let y := obj [("p", .float (.ofInt 2)), ("q", .str "s")]
    let turned := obj [("q", .str "s"), ("p", .float (.ofInt 2))]
    let a := obj [("x", x), ("y", y)]
    let c := obj [("y", turned), ("x", x)]
    let b := obj [("y", .obj [("q", .str "s"), ("p", .int 2)]), ("x", .arr [.float (.ofInt 1), .null])]
    let n := obj [("x", .arr [.float .nan])]
    a.KeysDistinct ∧ b.KeysDistinct ∧ n.KeysDistinct ∧ a.Alike c ∧ b.deepEq a = true ∧
      c.deepEq b = true ∧ n.deepEq n = false := by
  intro x y turned a c b n
  have distinct : a.KeysDistinct := by
    simp [a, x, y, Dict.Distinct, Dict.keys, KeysDistinct, within_alone]
  have otherDistinct : b.KeysDistinct := by
    simp [b, Dict.Distinct, Dict.keys, KeysDistinct, within_alone]
  have nanDistinct : n.KeysDistinct := by
    simp [n, Dict.Distinct, Dict.keys, KeysDistinct, within_alone]
  have reordered : a.Alike c := by
    have inner : y.Alike turned :=
      alike_obj (entries_refl _) (.inr ⟨by simp [Dict.Distinct, Dict.keys], .swap ..⟩)
    have entries : EntriesAlike [("x", x), ("y", y)] [("x", x), ("y", turned)] :=
      .cons ⟨rfl, alike_refl x⟩ (.cons ⟨rfl, inner⟩ .nil)
    exact alike_obj entries (.inr ⟨by simp [Dict.Distinct, Dict.keys], .swap ..⟩)
  have equal : a.deepEq b = true := by decide +kernel
  obtain ⟨symmetric, -, unseen, -⟩ := equality_lawful distinct otherDistinct
  obtain ⟨-, itself, -⟩ := equality_lawful nanDistinct nanDistinct
  refine ⟨distinct, otherDistinct, nanDistinct, reordered, symmetric ▸ equal, ?_, ?_⟩
  · rw [unseen c b reordered (alike_refl b), equal]
  · rw [← Bool.not_eq_true, itself]
    simp [n, within_alone]

end Value

end JsonQuery
