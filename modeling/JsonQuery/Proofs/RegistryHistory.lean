import Mathlib.Data.Finset.Card
import JsonQuery.Function.Library
import JsonQuery.Proofs.Dictionaries
import JsonQuery.Proofs.NameOrder

/-! Registries that are made, copied and changed in any order. What a copy answers depends on its
own past alone: on what was registered in it, and before that in the copy that it was made from. Of
several functions registered under one name the last one counts, and the listings go through the
names in the order of their bytes. -/
namespace JsonQuery

/-! ## Copies and their pasts -/

/-- What can be done with registries. A step tells which copy it works on, and copies are numbered
in the order in which they are made. -/
inductive RegistryStep where
  | new
  | builtins
  | clone (source : Nat)
  | register (target : Nat) (name : String) (f : Function)

/-- The registry of the library, which all share, and the copies that have been made. -/
structure Registries where
  shared : Registry
  copies : List Registry

namespace Registries

/-- A step on a copy that has not been made does nothing. -/
def apply (state : Registries) : RegistryStep → Registries
  | .new => { state with copies := state.copies ++ [.empty] }
  | .builtins => { state with copies := state.copies ++ [state.shared] }
  | .clone source => { state with copies := state.copies ++ state.copies[source]?.toList }
  | .register target name f =>
    { state with copies := state.copies.modify target (·.register name f) }

/-- The registries after a number of steps, the latest of them first. -/
def after : List RegistryStep → Registries
  | [] => ⟨.builtins, []⟩
  | step :: earlier => (after earlier).apply step

end Registries

namespace RegistryStep

/-- How many copies have been made. -/
def made : List RegistryStep → Nat
  | [] => 0
  | .new :: earlier => made earlier + 1
  | .builtins :: earlier => made earlier + 1
  | .clone source :: earlier => made earlier + if source < made earlier then 1 else 0
  | .register .. :: earlier => made earlier

/-- All that was ever registered in a copy, the latest first. A clone has the past of its source up
to the moment when it was made. -/
def past : List RegistryStep → Nat → Option (List (String × Function))
  | [], _ => none
  | .new :: earlier, copy => if copy = made earlier then some [] else past earlier copy
  | .builtins :: earlier, copy =>
    if copy = made earlier then some Library.functions.reverse else past earlier copy
  | .clone source :: earlier, copy =>
    if copy = made earlier then past earlier source else past earlier copy
  | .register target name f :: earlier, copy =>
    if copy = target then (past earlier copy).map ((name, f) :: ·) else past earlier copy

end RegistryStep

/-! ## What a registry keeps of its past -/

private theorem find_lookup (name : String) (entries : List (String × Function)) :
    Dict.find? name entries = entries.lookup name := by
  induction entries with
  | nil => rfl
  | cons entry rest ih =>
    obtain ⟨key, f⟩ := entry
    rw [Dict.find?, List.lookup_cons, ih]
    by_cases same : key = name
    · simp [same]
    · rw [if_neg same, beq_eq_false_iff_ne.mpr (Ne.symm same)]

private theorem lookup_known_iff (name : String) (entries : List (String × Function)) :
    (entries.lookup name).isSome = true ↔ name ∈ entries.map Prod.fst := by
  rw [List.lookup_isSome_iff, List.mem_map]
  refine exists_congr fun entry => and_congr_right fun _ => ?_
  rw [beq_iff_eq, eq_comm]

namespace Registry

/-- Each name has the function that was registered for it last. -/
def Keeps (r : Registry) (past : List (String × Function)) : Prop :=
  ∀ name, r.get? name = past.lookup name

variable {r : Registry} {past : List (String × Function)}

private theorem empty_keeps : Registry.empty.Keeps [] :=
  fun _ => rfl

private theorem builtins_keeps : Registry.builtins.Keeps Library.functions.reverse := by
  intro name
  rw [← find_lookup]
  exact (Dict.find_insert_all name Library.functions []).trans (Option.or_none)

private theorem register_keeps (keeps : r.Keeps past) (name : String) (f : Function) :
    (r.register name f).Keeps ((name, f) :: past) := by
  intro wanted
  have others : r.entries.find? wanted = past.lookup wanted := keeps wanted
  rw [register, get?, Dict.find_insert, ← find_lookup, Dict.find?, others, find_lookup]

section

variable (keeps : r.Keeps past)
include keeps

private theorem known_iff (name : String) :
    (r.get? name).isSome = true ↔ name ∈ past.map Prod.fst := by
  rw [keeps, lookup_known_iff]

private theorem keys_iff (name : String) : name ∈ r.entries.keys ↔ name ∈ past.map Prod.fst := by
  rw [Dict.keys, ← known_iff keeps, get?, find_lookup, lookup_known_iff]

private theorem names_iff (name : String) : name ∈ r.names ↔ name ∈ past.map Prod.fst := by
  rw [names, (List.mergeSort_perm _ _).mem_iff, keys_iff keeps]

omit keeps in
theorem names_ascending (r : Registry) : r.names.Pairwise fun a b => utf8 a < utf8 b := by
  have distinct : (r.entries.keys.map id).Nodup := by
    rw [List.map_id]
    exact r.distinct
  have ascending := sort_names_ascending id r.entries.keys distinct
  rw [List.map_id] at ascending
  exact ascending.imp utf8_lt

private theorem size_names : r.size = (past.map Prod.fst).toFinset.card := by
  have same : (past.map Prod.fst).toFinset = r.entries.keys.toFinset := by
    ext name
    rw [List.mem_toFinset, List.mem_toFinset, keys_iff keeps]
  rw [same, List.toFinset_card_of_nodup r.distinct, Dict.keys, List.length_map, size]

/-- Every name that is listed has a line. -/
theorem described (listed : ∀ name ∈ listing, name ∈ past.map Prod.fst) :
    ∃ functions, List.Forall₂ (fun name f => past.lookup name = some f) listing functions ∧
      (listing.map fun name =>
        match r.get? name with
        | some f => name ++ f.signature.text ++ "\n"
        | none => "") =
      List.zipWith (fun name f => name ++ f.signature.text ++ "\n") listing functions := by
  induction listing with
  | nil => exact ⟨[], .nil, rfl⟩
  | cons name rest ih =>
    obtain ⟨here, others⟩ := List.forall_mem_cons.mp listed
    obtain ⟨functions, each, lines⟩ := ih others
    obtain ⟨f, last⟩ := Option.isSome_iff_exists.mp ((lookup_known_iff name past).mpr here)
    refine ⟨f :: functions, .cons last each, ?_⟩
    rw [List.map_cons, lines, keeps, last]
    rfl

end

/-- The answers of a registry with this past. -/
structure Answers (r : Registry) (past : List (String × Function)) : Prop where
  get : ∀ name, r.get? name = past.lookup name
  lookup : ∀ name, r.lookup name =
    (past.lookup name).elim (.error (.unknownFunction name)) .ok
  unknown : ∀ name, r.lookup name = .error (.unknownFunction name) ↔ name ∉ past.map Prod.fst
  contains : ∀ name, r.contains name = true ↔ name ∈ past.map Prod.fst
  size : r.size = (past.map Prod.fst).toFinset.card
  isEmpty : r.isEmpty = true ↔ r.size = 0
  names : ∀ name, name ∈ r.names ↔ name ∈ past.map Prod.fst
  ascending : r.names.Pairwise fun a b => utf8 a < utf8 b
  describe : ∃ functions, List.Forall₂ (fun name f => past.lookup name = some f) r.names functions ∧
    r.describe = String.join
      (List.zipWith (fun name f => name ++ f.signature.text ++ "\n") r.names functions)

private theorem answers_of_keeps (keeps : r.Keeps past) : r.Answers past where
  get := keeps
  lookup name := by
    rw [Registry.lookup, keeps]
    cases past.lookup name <;> rfl
  unknown name := by
    rw [Registry.lookup, ← known_iff keeps]
    cases r.get? name <;> simp
  contains := known_iff keeps
  size := size_names keeps
  isEmpty := List.isEmpty_iff_length_eq_zero
  names := names_iff keeps
  ascending := names_ascending r
  describe := by
    obtain ⟨functions, each, lines⟩ := described keeps fun name => (names_iff keeps name).mp
    exact ⟨functions, each, congrArg String.join lines⟩

end Registry

/-! ## Every copy keeps its own past -/

namespace Registries
open RegistryStep

/-- There are as many copies as have been made, and each keeps its past. -/
structure Faithful (state : Registries) (history : List RegistryStep) : Prop where
  shared : state.shared = .builtins
  made : state.copies.length = made history
  keeps : ∀ copy, Option.Rel Registry.Keeps state.copies[copy]? (past history copy)

/-- A copy that is made comes behind the others. -/
theorem copy_added {copies : List Registry} {pasts : Nat → Option (List (String × Function))}
    (keeps : ∀ copy, Option.Rel Registry.Keeps copies[copy]? (pasts copy))
    (added : Option.Rel Registry.Keeps fresh origin) (copy : Nat) :
    Option.Rel Registry.Keeps (copies ++ fresh.toList)[copy]?
      (if copy = copies.length then origin else pasts copy) := by
  have own := keeps copy
  rcases Nat.lt_trichotomy copy copies.length with before | rfl | beyond
  · rwa [List.getElem?_append_left before, if_neg before.ne]
  · rw [List.getElem?_append_right (Nat.le_refl _), Nat.sub_self, if_pos rfl]
    cases added with
    | some keeps => exact .some keeps
    | none => exact .none
  · -- Beyond the new copy there is none, and so there was none beyond the others.
    have single : fresh.toList.length ≤ 1 := by cases fresh <;> simp
    rw [List.getElem?_eq_none beyond.le] at own
    rwa [if_neg beyond.ne', List.getElem?_eq_none (by rw [List.length_append]; omega)]

theorem registered (name : String) (f : Function) (own : Option.Rel Registry.Keeps found origin) :
    Option.Rel Registry.Keeps (found.map (·.register name f)) (origin.map ((name, f) :: ·)) := by
  cases own with
  | some keeps => exact .some (Registry.register_keeps keeps name f)
  | none => exact .none

private theorem answered (own : Option.Rel Registry.Keeps found origin) :
    Option.Rel Registry.Answers found origin := by
  cases own with
  | some keeps => exact .some (Registry.answers_of_keeps keeps)
  | none => exact .none

variable {state : Registries} {history : List RegistryStep}

private theorem initial_faithful : Faithful ⟨.builtins, []⟩ [] where
  shared := rfl
  made := rfl
  keeps _ := .none

private theorem step_faithful (faithful : state.Faithful history) (step : RegistryStep) :
    (state.apply step).Faithful (step :: history) := by
  obtain ⟨shared, count, keeps⟩ := faithful
  cases step with
  | new =>
    refine ⟨shared, by simp [apply, RegistryStep.made, count], fun copy => ?_⟩
    rw [past, ← count]
    exact copy_added keeps (.some Registry.empty_keeps) copy
  | builtins =>
    refine ⟨shared, by simp [apply, RegistryStep.made, count], fun copy => ?_⟩
    rw [past, ← count]
    exact copy_added keeps (.some (shared ▸ Registry.builtins_keeps)) copy
  | clone source =>
    refine ⟨shared, ?_, fun copy => ?_⟩
    · rw [apply, List.length_append, RegistryStep.made, ← count]
      by_cases inside : source < state.copies.length
      · simp [inside]
      · simp [inside]
    · rw [past, ← count]
      exact copy_added keeps (keeps source) copy
  | register target name f =>
    refine ⟨shared, by simp [apply, RegistryStep.made, count], fun copy => ?_⟩
    have own := keeps copy
    rw [past]
    by_cases same : copy = target
    · subst same
      rw [if_pos rfl, apply, List.getElem?_modify_eq]
      exact registered name f own
    · rw [if_neg same, apply, List.getElem?_modify_ne _ _ (Ne.symm same)]
      exact own

private theorem after_faithful (history : List RegistryStep) :
    (after history).Faithful history := by
  induction history with
  | nil => exact initial_faithful
  | cons step earlier ih => exact step_faithful ih step

/-- A step changes no copy but the one in which it registers a function. -/
theorem step_elsewhere (step : RegistryStep) (there : copy < state.copies.length)
    (elsewhere : ∀ name f, step ≠ .register copy name f) :
    (state.apply step).copies[copy]? = state.copies[copy]? := by
  cases step with
  | new => exact List.getElem?_append_left there
  | builtins => exact List.getElem?_append_left there
  | clone source => exact List.getElem?_append_left there
  | register target name f =>
    have other : target ≠ copy := fun same => elsewhere name f (same ▸ rfl)
    exact List.getElem?_modify_ne _ _ other

/-- Whatever has been done with registries, each copy answers from its own past. No step changes a
copy but the one in which it registers a function, and none changes the registry of the library. -/
theorem copies_answer (history : List RegistryStep) :
    (after history).shared = .builtins ∧
      (∀ copy, Option.Rel Registry.Answers (after history).copies[copy]? (past history copy)) ∧
      ∀ step copy, copy < (after history).copies.length →
        (∀ name f, step ≠ .register copy name f) →
          (after (step :: history)).copies[copy]? = (after history).copies[copy]? := by
  obtain ⟨shared, -, keeps⟩ := after_faithful history
  exact ⟨shared, fun copy => answered (keeps copy), fun step _ => step_elsewhere step⟩

/-- A function of the library is replaced in a clone, and its source still has it. -/
theorem copies_answer_replaced :
    let earlier : List RegistryStep := [.clone 0, .builtins]
    let f : Function := ⟨Library.taking [[.array]], fun _ => .ok .null⟩
    let step := RegistryStep.register 1 "abs" f
    0 < (after earlier).copies.length ∧ (∀ name g, step ≠ .register 0 name g) ∧
      (after (step :: earlier)).copies[0]? = some .builtins ∧
      ∃ r, (after (step :: earlier)).copies[1]? = some r ∧ r.get? "abs" = some f := by
  intro earlier f step
  have there : 0 < (after earlier).copies.length := by decide
  have elsewhere (name : String) (g : Function) : step ≠ .register 0 name g :=
    fun same => absurd (RegistryStep.register.inj same).1 (by decide)
  obtain ⟨-, -, unchanged⟩ := copies_answer earlier
  obtain ⟨-, answers, -⟩ := copies_answer (step :: earlier)
  refine ⟨there, elsewhere, unchanged step 0 there elsewhere, _, rfl, ?_⟩
  cases answers 1 with
  | some answers => exact answers.get "abs"

end Registries

end JsonQuery
