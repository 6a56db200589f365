/-!
Dictionaries with string keys that remember the order of insertion. A key keeps the place where
it was first inserted and the value that was inserted last, so the operations below never make
two entries with one key. JSON objects and function tables are both held in this form.
-/
namespace JsonQuery

/-- Entries in the order of their first insertion. -/
abbrev Dict (α : Type) := List (String × α)

namespace Dict

/-- The value stored under `key`. -/
def find? {α : Type} (key : String) : Dict α → Option α
  | [] => none
  | (k, a) :: rest => if k = key then some a else find? key rest

/-- Stores `a` under `key`: in place when the key is present, at the end otherwise. -/
def insert {α : Type} (key : String) (a : α) : Dict α → Dict α
  | [] => [(key, a)]
  | (k, b) :: rest => if k = key then (k, a) :: rest else (k, b) :: insert key a rest

/-- The keys in their order. -/
def keys {α : Type} (d : Dict α) : List String :=
  d.map Prod.fst

/-- The values in the order of their keys. -/
def values {α : Type} (d : Dict α) : List α :=
  d.map Prod.snd

/-- Inserts the given entries one after another. -/
def insertAll {α : Type} (d : Dict α) (entries : List (String × α)) : Dict α :=
  entries.foldl (fun acc entry => acc.insert entry.1 entry.2) d

/-- The dictionary of a list of entries, later values of a key replacing earlier ones. -/
def ofEntries {α : Type} (entries : List (String × α)) : Dict α :=
  insertAll [] entries

/-- Every key occurs once. -/
def Distinct {α : Type} (d : Dict α) : Prop :=
  d.keys.Nodup

/-! Insertion keeps the keys distinct. -/

theorem keys_insert {α : Type} (d : Dict α) (key : String) (a : α) :
    (d.insert key a).keys = if key ∈ d.keys then d.keys else d.keys ++ [key] := by
  induction d with
  | nil => rfl
  | cons entry rest ih =>
    obtain ⟨k, b⟩ := entry
    by_cases same : k = key
    · subst same
      simp [insert, keys]
    · have elsewhere : (key ∈ keys ((k, b) :: rest)) = (key ∈ keys rest) := by
        simp [keys, Ne.symm same]
      rw [insert, if_neg same, keys, List.map_cons]
      change k :: keys (insert key a rest) = _
      simp only [ih, elsewhere]
      split <;> rfl

theorem distinct_insert {α : Type} {d : Dict α} (distinct : d.Distinct) (key : String) (a : α) :
    (d.insert key a).Distinct := by
  unfold Distinct
  rw [keys_insert]
  split
  · exact distinct
  · rename_i absent
    rw [List.nodup_append]
    refine ⟨distinct, by simp, fun k member other last same => absent ?_⟩
    rwa [← List.mem_singleton.mp last, ← same]

theorem distinct_insert_all {α : Type} (entries : List (String × α)) :
    ∀ d : Dict α, d.Distinct → (d.insertAll entries).Distinct := by
  induction entries with
  | nil => exact fun d distinct => distinct
  | cons entry rest ih => exact fun d distinct => ih _ (distinct_insert distinct _ _)

theorem distinct_of_entries {α : Type} (entries : List (String × α)) :
    (ofEntries entries).Distinct :=
  distinct_insert_all entries [] List.nodup_nil

end Dict

end JsonQuery
