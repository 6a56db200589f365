import Mathlib.Data.List.Forall2
import JsonQuery.Eval
import JsonQuery.Proofs.Dictionaries
import JsonQuery.Value.Arithmetic

/-! Values that differ in the order of keys only. What an expression does with values, short of
listing the entries of an object, does not tell them apart, and gives results that again differ in
the order of keys only. -/
namespace JsonQuery

/-- The same values up to the order of the keys of objects, at any depth. -/
inductive Value.Alike : Value → Value → Prop where
  | null : Alike .null .null
  | bool : Alike (.bool b) (.bool b)
  | int : Alike (.int n) (.int n)
  | float : Alike (.float x) (.float x)
  | str : Alike (.str s) (.str s)
  | arr (items : List.Forall₂ Alike as bs) : Alike (.arr as) (.arr bs)
  | obj (keys : Dict.keys as = Dict.keys bs)
      (values : List.Forall₂ Alike (Dict.values as) (Dict.values bs)) (order : Reordered bs cs) :
      Alike (.obj as) (.obj cs)

/-- Entries with the same keys and alike values, in the same order. -/
def EntriesAlike (entries others : Dict Value) : Prop :=
  List.Forall₂ (fun a b => a.1 = b.1 ∧ a.2.Alike b.2) entries others

theorem entries_alike_iff : EntriesAlike entries others ↔
    Dict.keys entries = Dict.keys others ∧
      List.Forall₂ Value.Alike (Dict.values entries) (Dict.values others) := by
  unfold EntriesAlike
  induction entries generalizing others with
  | nil => cases others <;> simp [Dict.keys, Dict.values]
  | cons entry rest ih =>
    cases others with
    | nil => simp [Dict.keys]
    | cons other others =>
      simp only [List.forall₂_cons, ih, Dict.keys, Dict.values, List.map_cons, List.cons.injEq]
      tauto

theorem alike_obj (entries : EntriesAlike as bs) (order : Reordered bs cs) :
    (Value.obj as).Alike (.obj cs) :=
  have same := entries_alike_iff.mp entries
  .obj same.1 same.2 order

private theorem obj_alike (alike : (Value.obj as).Alike other) :
    ∃ bs cs, other = .obj cs ∧ EntriesAlike as bs ∧ Reordered bs cs := by
  cases alike with
  | obj keys values order => exact ⟨_, _, rfl, entries_alike_iff.mpr ⟨keys, values⟩, order⟩

mutual

theorem alike_refl (v : Value) : v.Alike v := by
  cases v with
  | arr items => exact .arr (items_refl items)
  | obj entries => exact alike_obj (entries_refl entries) (.inl rfl)
  | _ => constructor

theorem items_refl (items : List Value) : List.Forall₂ Value.Alike items items := by
  cases items with
  | nil => exact .nil
  | cons item rest => exact .cons (alike_refl item) (items_refl rest)

theorem entries_refl (entries : List (String × Value)) : EntriesAlike entries entries := by
  cases entries with
  | nil => exact .nil
  | cons entry rest =>
    obtain ⟨key, v⟩ := entry
    exact .cons ⟨rfl, alike_refl v⟩ (entries_refl rest)

end

section

variable {v w a b c d : Value}

theorem alike_isNull (alike : v.Alike w) : v.isNull = w.isNull := by
  cases alike <;> rfl

theorem alike_isNumber (alike : v.Alike w) : v.isNumber = w.isNumber := by
  cases alike <;> rfl

theorem alike_isString (alike : v.Alike w) : v.isString = w.isString := by
  cases alike <;> rfl

theorem alike_typeName (alike : v.Alike w) : v.typeName = w.typeName := by
  cases alike <;> rfl

theorem alike_toDouble (alike : v.Alike w) : v.toDouble? = w.toDouble? := by
  cases alike <;> rfl

theorem alike_toDecimal (alike : v.Alike w) : v.toDecimal? = w.toDecimal? := by
  cases alike <;> rfl

theorem alike_toStr (alike : v.Alike w) : v.toStr? = w.toStr? := by
  cases alike <;> rfl

private theorem alike_compare (left : a.Alike b) (right : c.Alike d) :
    a.compare? c = b.compare? d := by
  cases left <;> cases right <;> rfl

theorem alike_less (left : a.Alike b) (right : c.Alike d) : a.less c = b.less d := by
  rw [Value.less, Value.less, alike_compare left right]

theorem alike_length (entries : EntriesAlike as bs) (order : Reordered bs cs) :
    as.length = cs.length :=
  entries.length_eq.trans (Dict.reordered_length order)

theorem alike_isTruthy (alike : v.Alike w) : v.isTruthy = w.isTruthy := by
  cases alike with
  | arr items => cases items <;> rfl
  | @obj as bs cs keys values order =>
    have length := alike_length (entries_alike_iff.mpr ⟨keys, values⟩) order
    have empty : as.isEmpty = cs.isEmpty := by
      rw [Bool.eq_iff_iff, List.isEmpty_iff_length_eq_zero, List.isEmpty_iff_length_eq_zero, length]
    rw [Value.isTruthy, Value.isTruthy, empty]
  | _ => rfl

/-- Under a key the same is found, or nothing in both. -/
theorem alike_find (entries : EntriesAlike as bs) (key : String) :
    Option.Rel Value.Alike (Dict.find? key as) (Dict.find? key bs) := by
  induction entries with
  | nil => exact .none
  | @cons a b _ _ first _ ih =>
    obtain ⟨same, value⟩ := first
    simp only [Dict.find?, same]
    split
    · exact .some value
    · exact ih

theorem alike_field (entries : EntriesAlike as bs) (order : Reordered bs cs) (key : String) :
    ((Dict.find? key as).getD .null).Alike ((Dict.find? key cs).getD .null) := by
  have found := alike_find entries key
  rw [Dict.find_reordered order] at found
  generalize Dict.find? key as = left at found ⊢
  generalize Dict.find? key cs = right at found ⊢
  cases found with
  | none => exact .null
  | some value => exact value

end

/-! ## Equality -/

theorem entries_found_all (entries others : List (String × Value)) :
    Value.entriesFound entries others =
      entries.all fun entry => (Dict.find? entry.1 others).any (entry.2.deepEq ·) := by
  induction entries with
  | nil => rfl
  | cons entry rest ih =>
    obtain ⟨key, a⟩ := entry
    rw [Value.entriesFound, List.all_cons, ih]
    cases Dict.find? key others <;> rfl

private theorem found_reordered {entries others : List (String × Value)}
    (order : Reordered entries others)
    (among : List (String × Value)) :
    Value.entriesFound entries among = Value.entriesFound others among := by
  obtain rfl | ⟨-, perm⟩ := order
  · rfl
  · rw [entries_found_all, entries_found_all, perm.all_eq]

mutual

/-- Equality does not see the order of keys on either side. -/
theorem alike_deepEq (a b c d : Value) (left : a.Alike b) (right : c.Alike d) :
    a.deepEq c = b.deepEq d := by
  cases a with
  | null | bool | str =>
    cases left
    cases right <;> rfl
  | int n | float x =>
    cases left
    rw [Value.deepEq, Value.deepEq, alike_compare (alike_refl _) right]
  | arr as =>
    cases left with
    | arr items =>
      cases right with
      | arr others => exact alike_itemsEq as _ _ _ items others
      | _ => rfl
  | obj as =>
    obtain ⟨bs, cs, rfl, entries, order⟩ := obj_alike left
    cases right with
    | @obj ds es fs keys values otherOrder =>
      have others : EntriesAlike ds es := entries_alike_iff.mpr ⟨keys, values⟩
      have found (key : String) : Option.Rel Value.Alike (Dict.find? key ds) (Dict.find? key fs) :=
        Dict.find_reordered otherOrder key ▸ alike_find others key
      rw [Value.deepEq, Value.deepEq, alike_length entries order, alike_length others otherOrder,
        alike_entriesFound as bs ds fs entries found, found_reordered order]
    | _ => rfl
termination_by structural a

theorem alike_itemsEq (as bs cs ds : List Value) (left : List.Forall₂ Value.Alike as bs)
    (right : List.Forall₂ Value.Alike cs ds) : Value.itemsEq as cs = Value.itemsEq bs ds := by
  cases as with
  | nil =>
    cases left
    cases right <;> rfl
  | cons a as =>
    cases left with
    | cons first rest =>
      cases right with
      | nil => rfl
      | cons other others =>
        rw [Value.itemsEq, Value.itemsEq, alike_deepEq a _ _ _ first other,
          alike_itemsEq as _ _ _ rest others]
termination_by structural as

theorem alike_entriesFound (as bs cs ds : List (String × Value)) (left : EntriesAlike as bs)
    (right : ∀ key, Option.Rel Value.Alike (Dict.find? key cs) (Dict.find? key ds)) :
    Value.entriesFound as cs = Value.entriesFound bs ds := by
  cases as with
  | nil =>
    cases left
    rfl
  | cons entry as =>
    obtain ⟨key, a⟩ := entry
    cases left with
    | @cons _ other _ bs first rest =>
      obtain ⟨otherKey, b⟩ := other
      obtain ⟨rfl, value⟩ := first
      have found := right key
      rw [Value.entriesFound, Value.entriesFound, alike_entriesFound as bs cs ds rest right]
      generalize Dict.find? key cs = c at found ⊢
      generalize Dict.find? key ds = d at found ⊢
      cases found with
      | none => rfl
      | some same => exact congrArg (· && _) (alike_deepEq a b _ _ value same)
termination_by structural as

end

/-! ## Comparisons -/

theorem alike_compareValues {a b c d : Value} (op : Comparator) (left : a.Alike b) (right : c.Alike d) :
    compareValues op a c = compareValues op b d := by
  unfold compareValues
  rw [alike_deepEq _ _ _ _ left right, alike_compare left right]

/-! ## Objects -/

private theorem insert_alike (base : EntriesAlike d other) (value : Value.Alike a b)
    (key : String) :
    EntriesAlike (d.insert key a) (other.insert key b) := by
  induction base with
  | nil => exact .cons ⟨rfl, value⟩ .nil
  | @cons x y xs ys first rest ih =>
    obtain ⟨k, v⟩ := x
    obtain ⟨k, w⟩ := y
    obtain ⟨rfl, alike⟩ := first
    simp only [Dict.insert]
    split
    · exact .cons ⟨rfl, value⟩ rest
    · exact .cons ⟨rfl, alike⟩ ih

theorem insert_all_alike (entries : EntriesAlike as bs) :
    ∀ d other : Dict Value, EntriesAlike d other →
      EntriesAlike (d.insertAll as) (other.insertAll bs) := by
  induction entries with
  | nil => exact fun _ _ base => base
  | @cons x y xs ys first rest ih =>
    intro d other base
    refine ih _ _ ?_
    dsimp only
    rw [first.1]
    exact insert_alike base first.2 _

/-- An object is the same with its keys in the order of their insertion and with its keys sorted. -/
theorem build_alike (entries : EntriesAlike as bs) :
    (buildObject .insertion as).Alike (buildObject .sorted bs) := by
  have built := insert_all_alike entries [] [] .nil
  refine alike_obj built (.inr ⟨Dict.distinct_of_entries bs, (List.mergeSort_perm _ _).symm⟩)

end JsonQuery
