import Mathlib
import JsonQuery.Token.Stream

/-! What the primitive readers of a token stream take from it. A successful reader is described by
the tokens it has taken and by the stream it leaves, so that the offsets and the failures of the
stream play no part in what follows. -/
namespace JsonQuery
open Parse

/-- The tokens still to be read, without their offsets. -/
def TokenStream.tokens (s : TokenStream) : List Token :=
  s.upcoming.map PlacedToken.token

/-- Taking exactly these tokens from the first stream leaves the second. -/
def Takes (before : TokenStream) (taken : List Token) (after : TokenStream) : Prop :=
  ∃ placed, placed.map PlacedToken.token = taken ∧
    before = ⟨placed ++ after.upcoming, after.finish⟩

theorem takes_nil : Takes before [] after ↔ before = after := by
  simp [Takes]

theorem takes_cons : Takes before (t :: taken) after ↔
    ∃ position more, before = ⟨⟨t, position⟩ :: more, after.finish⟩ ∧
      Takes ⟨more, after.finish⟩ taken after := by
  constructor
  · rintro ⟨placed, spelled, rfl⟩
    obtain ⟨⟨token, position⟩, placed, rfl, rfl, rfl⟩ := List.map_eq_cons_iff.mp spelled
    exact ⟨position, placed ++ after.upcoming, rfl, placed, rfl, rfl⟩
  · rintro ⟨position, more, rfl, placed, spelled, same⟩
    obtain rfl : more = placed ++ after.upcoming := congrArg TokenStream.upcoming same
    exact ⟨⟨t, position⟩ :: placed, by simp [spelled], rfl⟩

theorem takes_append : Takes before (first ++ second) after ↔
    ∃ middle, Takes before first middle ∧ Takes middle second after := by
  constructor
  · rintro ⟨placed, spelled, rfl⟩
    obtain ⟨front, back, rfl, frontSpelled, backSpelled⟩ := List.map_eq_append_iff.mp spelled
    exact ⟨⟨back ++ after.upcoming, after.finish⟩, ⟨front, frontSpelled, by simp⟩,
      back, backSpelled, rfl⟩
  · rintro ⟨middle, ⟨front, rfl, rfl⟩, back, rfl, rfl⟩
    exact ⟨front ++ back, by simp, by simp⟩

theorem takes_tokens (takes : Takes before taken after) :
    before.tokens = taken ++ after.tokens := by
  obtain ⟨placed, rfl, rfl⟩ := takes
  simp [TokenStream.tokens]

/-- One token, then the rest of what a reader takes. -/
theorem takes_tail (rest : Takes ⟨more, finish⟩ taken after) :
    Takes ⟨⟨t, offset⟩ :: more, finish⟩ (t :: taken) after := by
  obtain ⟨placed, spelled, same⟩ := rest
  cases same
  exact ⟨⟨t, offset⟩ :: placed, by simp [spelled], rfl⟩

theorem takes_first : Takes ⟨⟨t, offset⟩ :: more, finish⟩ [t] ⟨more, finish⟩ :=
  takes_tail (takes_nil.mpr rfl)

theorem takes_single : Takes before [t] after ↔
    ∃ position, before = ⟨⟨t, position⟩ :: after.upcoming, after.finish⟩ := by
  constructor
  · intro takes
    obtain ⟨position, more, rfl, rest⟩ := takes_cons.mp takes
    obtain rfl : more = after.upcoming := congrArg TokenStream.upcoming (takes_nil.mp rest)
    exact ⟨position, rfl⟩
  · rintro ⟨position, rfl⟩
    exact takes_first

section Primitives
variable {α β : Type} {f : α → Parse β} {s : TokenStream}

theorem bind_of_ran {p : Parse α} (ran : p s = (.ok a, middle)) : (p >>= f) s = f a middle := by
  simp only [Bind.bind, ran]

theorem bind_of_failed {p : Parse α} (failed : p s = (.error e, after)) :
    (p >>= f) s = (.error e, after) := by
  simp only [Bind.bind, failed]

theorem bind_ok {p : Parse α} : (p >>= f) s = (.ok b, after) ↔
    ∃ a middle, p s = (.ok a, middle) ∧ f a middle = (.ok b, after) := by
  rcases ran : p s with ⟨failure | value, middle⟩
  · simp [bind_of_failed ran]
  · rw [bind_of_ran ran]
    constructor
    · exact fun next => ⟨value, middle, rfl, next⟩
    · rintro ⟨_, _, same, next⟩
      cases same
      exact next

theorem map_ok {p : Parse α} {g : α → β} : (p >>= fun a => pure (g a)) s = (.ok b, after) ↔
    ∃ a, p s = (.ok a, after) ∧ b = g a := by
  constructor
  · intro ran
    obtain ⟨a, middle, ran, same⟩ := bind_ok.mp ran
    cases same
    exact ⟨a, ran, rfl⟩
  · rintro ⟨a, ran, rfl⟩
    exact bind_ok.mpr ⟨a, after, ran, rfl⟩

@[simp] theorem pure_run (a : α) : (pure a : Parse α) s = (.ok a, s) := rfl

@[simp] theorem peek_bind {f : Option Token → Parse β} :
    (peek >>= f) s = f (s.upcoming.head?.map PlacedToken.token) s := rfl

@[simp] theorem position_bind {f : Nat → Parse β} : (position >>= f) s = f s.position s := rfl

@[simp] theorem advance_bind {f : Unit → Parse β} : (advance >>= f) s = f () s.tail := rfl

@[simp] theorem take_bind {f : Option PlacedToken → Parse β} :
    (take >>= f) s = f s.upcoming.head? s.tail := rfl

@[simp] theorem tail_cons : TokenStream.tail ⟨t :: more, finish⟩ = ⟨more, finish⟩ := rfl

@[simp] theorem fail_not_ok (a : α) : (fail e : Parse α) s ≠ (.ok a, after) := by
  simp [fail]

@[simp] theorem fail_here_not_ok (a : α) : (failHere expected : Parse α) s ≠ (.ok a, after) := by
  unfold failHere
  split <;> simp

/-- An expected symbol is the next token, and nothing else is taken with it. -/
theorem expect_ok : expect symbol expected s = (.ok done, after) ↔
    Takes s [.symbol symbol] after := by
  obtain ⟨_ | ⟨⟨token, offset⟩, more⟩, finish⟩ := s
  · simp [expect, takes_cons]
  · simp only [takes_cons, takes_nil]
    by_cases right : token = .symbol symbol
    · subst right
      simp only [expect, peek_bind, List.head?_cons, Option.map_some, if_pos, advance, tail_cons,
        Prod.mk.injEq, true_and]
      constructor
      · rintro rfl
        exact ⟨offset, more, rfl, rfl⟩
      · rintro ⟨_, _, same, rest⟩
        cases same
        exact rest
    · have refused : expect symbol expected ⟨⟨token, offset⟩ :: more, finish⟩ =
          failHere expected ⟨⟨token, offset⟩ :: more, finish⟩ := by
        cases token with
        | symbol found => simp_all [expect]
        | _ => rfl
      simp only [refused, fail_here_not_ok, false_iff, not_exists]
      rintro _ _ ⟨same, -⟩
      cases same
      exact right rfl

end Primitives

/-- Reads the value and leaves the given stream, or stops at a limit on nesting that is less than
what the value needs. Without a limit only the first remains. -/
def Yields {α : Type} (limit : Option Nat) (need : Nat) (p : Parse α) (before : TokenStream) (a : α)
    (after : TokenStream) : Prop :=
  p before = (.ok a, after) ∨
    ∃ n position left, limit = some n ∧ n < need ∧ p before = (.error (.tooDeep n position), left)

section Outcomes
variable {α β : Type} {p : Parse α} {f : α → Parse β} {limit : Option Nat} {need : Nat}

theorem yields_of_ran (ran : p before = (.ok a, after)) : Yields limit need p before a after :=
  .inl ran

private theorem yields_pure (a : α) : Yields limit need (pure a) s a s := yields_of_ran rfl

/-- A limit that stops the first reader stops the sequence. -/
theorem yields_bind (first : Yields limit need p before a middle)
    (next : Yields limit need (f a) middle b after) :
    Yields limit need (p >>= f) before b after := by
  rcases first with ran | ⟨n, position, left, bound, less, stopped⟩
  · unfold Yields
    rw [bind_of_ran ran]
    exact next
  · exact .inr ⟨n, position, left, bound, less, bind_of_failed stopped⟩

theorem yields_map {g : α → β} (first : Yields limit need p before a after) :
    Yields limit need (p >>= fun a => pure (g a)) before (g a) after :=
  yields_bind first (yields_pure _)

theorem yields_expect (takes : Takes before [.symbol symbol] after) :
    Yields limit need (expect symbol expected) before () after :=
  yields_of_ran (expect_ok.mpr takes)

end Outcomes

end JsonQuery
