import Mathlib.Data.List.Nodup
import Mathlib.Data.List.Perm.Basic
import JsonQuery.Dict

/-! Dictionaries as maps. Insertion keeps the keys distinct and decides what is found later, so two
dictionaries in which the same is found hold the same entries, in some order. -/
namespace JsonQuery

/-- The same entries in the same order, or in any order if no key occurs twice. -/
def Reordered {α : Type} (d other : Dict α) : Prop :=
  d = other ∨ d.Distinct ∧ d.Perm other

namespace Dict

variable {α : Type} {d other : Dict α}

theorem find_insert (d : Dict α) (key : String) (a : α) (wanted : String) :
    (d.insert key a).find? wanted = if key = wanted then some a else d.find? wanted := by
  induction d with
  | nil => rfl
  | cons entry rest ih =>
    obtain ⟨k, b⟩ := entry
    by_cases same : k = key
    · subst same
      simp only [insert, find?, if_true]
      split <;> rfl
    · simp only [insert, same, if_false, find?, ih]
      by_cases here : k = wanted
      · subst here
        rw [if_pos rfl, if_pos rfl, if_neg (Ne.symm same)]
      · rw [if_neg here, if_neg here]

private theorem mem_insert {d : Dict α} (member : entry ∈ d.insert key a) :
    entry = (key, a) ∨ entry ∈ d := by
  induction d with
  | nil => simpa [Dict.insert] using member
  | cons first rest ih =>
    obtain ⟨k, b⟩ := first
    unfold Dict.insert at member
    split at member
    · rename_i same
      subst same
      exact (List.mem_cons.mp member).imp_right (List.mem_cons_of_mem _)
    · rcases List.mem_cons.mp member with same | member
      · exact .inr (by simp [same])
      · exact (ih member).imp_right (List.mem_cons_of_mem _)

theorem mem_insertAll (entries : List (String × α)) :
    ∀ d : Dict α, entry ∈ d.insertAll entries → entry ∈ d ∨ entry ∈ entries := by
  induction entries with
  | nil => exact fun d member => .inl member
  | cons first rest ih =>
    intro d member
    rcases ih _ member with member | member
    · rcases mem_insert member with rfl | member
      · exact .inr (List.mem_cons_self ..)
      · exact .inl member
    · exact .inr (List.mem_cons_of_mem _ member)

theorem mem_of_find? {d : Dict α} (found : d.find? key = some a) : (key, a) ∈ d := by
  induction d with
  | nil => cases found
  | cons first rest ih =>
    obtain ⟨k, b⟩ := first
    unfold Dict.find? at found
    split at found
    · rename_i same
      cases found
      simp [same]
    · exact List.mem_cons_of_mem _ (ih found)

private theorem insert_absent (absent : key ∉ d.keys) : d.insert key a = d ++ [(key, a)] := by
  induction d with
  | nil => rfl
  | cons entry rest ih =>
    obtain ⟨k, b⟩ := entry
    obtain ⟨other, others⟩ := not_or.mp fun same => absent (List.mem_cons.mpr same)
    rw [insert, if_neg (Ne.symm other), ih others, List.cons_append]

private theorem insert_all_distinct (entries : List (String × α)) :
    ∀ d : Dict α, (d ++ entries).Distinct → d.insertAll entries = d ++ entries := by
  induction entries with
  | nil => exact fun d _ => (List.append_nil d).symm
  | cons entry rest ih =>
    intro d distinct
    obtain ⟨key, a⟩ := entry
    have absent : key ∉ d.keys := by
      have apart := (List.nodup_append'.mp (by simpa [Distinct, keys] using distinct)).2.2
      exact fun member => apart (by simpa [keys] using member) List.mem_cons_self
    have step : d.insertAll ((key, a) :: rest) = (d.insert key a).insertAll rest := rfl
    rw [step, insert_absent absent, ih _ (by simpa using distinct), List.append_assoc,
      List.singleton_append]

/-- Entries with distinct keys are a dictionary as they are. -/
theorem of_entries_distinct (distinct : d.Distinct) : ofEntries d = d :=
  insert_all_distinct d [] distinct

private theorem find_append (d other : Dict α) (wanted : String) :
    find? wanted (d ++ other) = (d.find? wanted).or (other.find? wanted) := by
  induction d with
  | nil => rfl
  | cons entry rest ih =>
    obtain ⟨k, b⟩ := entry
    simp only [List.cons_append, find?, ih]
    split <;> rfl

/-- Of the inserted entries the last one of a key is found. -/
theorem find_insert_all (wanted : String) (entries : List (String × α)) :
    ∀ d : Dict α, (d.insertAll entries).find? wanted =
      (find? wanted entries.reverse).or (d.find? wanted) := by
  induction entries with
  | nil => exact fun d => rfl
  | cons entry rest ih =>
    intro d
    obtain ⟨k, b⟩ := entry
    rw [List.reverse_cons, find_append, Option.or_assoc]
    refine (ih _).trans ?_
    rw [find_insert]
    simp only [find?]
    split <;> rfl

theorem find_eq_iff (distinct : d.Distinct) : d.find? key = some a ↔ (key, a) ∈ d := by
  induction d with
  | nil => simp [find?]
  | cons entry rest ih =>
    obtain ⟨k, b⟩ := entry
    obtain ⟨fresh, others⟩ := List.nodup_cons.mp distinct
    by_cases same : k = key
    · subst same
      have absent : (k, a) ∉ rest := fun member => fresh (List.mem_map.mpr ⟨_, member, rfl⟩)
      simp [find?, absent, eq_comm]
    · rw [find?, if_neg same, ih others, List.mem_cons, Prod.mk.injEq]
      simp [Ne.symm same]

/-- Distinct keys make a dictionary the set of what is found in it. -/
theorem perm_of_find (distinct : d.Distinct) (otherDistinct : other.Distinct)
    (same : ∀ key, d.find? key = other.find? key) : d.Perm other := by
  rw [List.perm_ext_iff_of_nodup (.of_map _ distinct) (.of_map _ otherDistinct)]
  rintro ⟨key, a⟩
  rw [← find_eq_iff distinct, ← find_eq_iff otherDistinct, same]

theorem perm_distinct (perm : d.Perm other) (distinct : d.Distinct) : other.Distinct :=
  (perm.map Prod.fst).nodup_iff.mp distinct

theorem find_perm (distinct : d.Distinct) (perm : d.Perm other) (key : String) :
    d.find? key = other.find? key := by
  ext a
  rw [find_eq_iff distinct, find_eq_iff (perm_distinct perm distinct), perm.mem_iff]

theorem find_reordered (reordered : Reordered d other) (key : String) :
    d.find? key = other.find? key := by
  obtain rfl | ⟨distinct, perm⟩ := reordered
  · rfl
  · exact find_perm distinct perm key

private theorem reordered_distinct (reordered : Reordered d other) (distinct : d.Distinct) :
    other.Distinct := by
  obtain rfl | ⟨-, perm⟩ := reordered
  · exact distinct
  · exact perm_distinct perm distinct

theorem reordered_length (reordered : Reordered d other) : d.length = other.length := by
  obtain rfl | ⟨-, perm⟩ := reordered
  · rfl
  · exact perm.length_eq

/-- Reordered entries inserted into a reordered dictionary give a reordered result. -/
theorem insert_all_reordered (distinct : d.Distinct) (base : Reordered d other)
    {entries others : Dict α} (inserted : Reordered entries others) :
    Reordered (d.insertAll entries) (other.insertAll others) := by
  have distinctAfter := distinct_insert_all entries d distinct
  refine .inr ⟨distinctAfter, perm_of_find distinctAfter
    (distinct_insert_all others other (reordered_distinct base distinct)) fun key => ?_⟩
  have last : find? key entries.reverse = find? key others.reverse := by
    obtain rfl | ⟨once, perm⟩ := inserted
    · rfl
    · have backwards : entries.reverse.Perm others.reverse :=
        (List.reverse_perm _).trans (perm.trans (List.reverse_perm _).symm)
      exact find_perm (perm_distinct (List.reverse_perm _).symm once) backwards key
  rw [find_insert_all, find_insert_all, last, find_reordered base]

end Dict

end JsonQuery
