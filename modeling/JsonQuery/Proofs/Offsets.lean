import JsonQuery.Expr.Parse
import JsonQuery.Proofs.RuleClosure

/-! Offsets tell where an error is and decide nothing. On two streams with the same tokens every
reader comes to the same result and leaves the same tokens, or it fails for the same reason; so two
texts with the same tokens denote the same expression. -/
namespace JsonQuery
open Parse Rules

/-- The error without the offset that it points at. -/
def ParseError.reason : ParseError → ParseError
  | .lex e => .lex e
  | .unexpectedToken found expected _ => .unexpectedToken found expected 0
  | .unexpectedEnd expected _ => .unexpectedEnd expected 0
  | .invalid fault _ => .invalid fault 0
  | .tooDeep limit _ => .tooDeep limit 0

/-- The same result, or two errors for the same reason. -/
inductive SameOutcome {α : Type} : Except ParseError α → Except ParseError α → Prop where
  | ok : SameOutcome (.ok a) (.ok a)
  | error (same : e.reason = f.reason) : SameOutcome (.error e) (.error f)

/-- On streams with the same tokens the readers have the same outcome and leave the same tokens. -/
def Parallel {α : Type} (p q : Parse α) : Prop :=
  ∀ s other : TokenStream, s.tokens = other.tokens →
    SameOutcome (p s).1 (q other).1 ∧ (p s).2.tokens = (q other).2.tokens

/-- The reader does not depend on offsets. -/
def Placeless {α : Type} (p : Parse α) : Prop :=
  Parallel p p

section Primitives

variable {α β : Type} {s other : TokenStream}

private theorem next_token (s : TokenStream) :
    s.upcoming.head?.map PlacedToken.token = s.tokens.head? := by
  simp [TokenStream.tokens]

private theorem tail_tokens (s : TokenStream) : s.tail.tokens = s.tokens.tail := by
  simp [TokenStream.tail, TokenStream.tokens]

private theorem tokens_length (same : s.tokens = other.tokens) :
    s.upcoming.length = other.upcoming.length := by
  simpa [TokenStream.tokens] using congrArg List.length same

private theorem placeless_pure (a : α) : Placeless (pure a : Parse α) :=
  fun _ _ same => ⟨.ok, same⟩

private theorem parallel_fail (same : e.reason = f.reason) : Parallel (fail e : Parse α) (fail f) :=
  fun _ _ tokens => ⟨.error same, tokens⟩

private theorem placeless_fail_here (expected : String) :
    Placeless (failHere expected : Parse α) := by
  rintro ⟨_ | ⟨t, more⟩, finish⟩ ⟨_ | ⟨u, others⟩, last⟩ same
  · exact ⟨.error rfl, same⟩
  · cases same
  · cases same
  · obtain ⟨token, -⟩ := List.cons.inj same
    exact ⟨.error (by simp [ParseError.reason, token]), same⟩

private theorem placeless_advance : Placeless advance := by
  intro s other same
  refine ⟨.ok, ?_⟩
  change s.tail.tokens = other.tail.tokens
  rw [tail_tokens, tail_tokens, same]

private theorem parallel_bind {p q : Parse α} {f g : α → Parse β} (first : Parallel p q)
    (next : ∀ a, Parallel (f a) (g a)) : Parallel (p >>= f) (q >>= g) := by
  intro s other same
  obtain ⟨outcome, left⟩ := first s other same
  rcases ran : p s with ⟨failure | a, after⟩ <;>
    rcases ran' : q other with ⟨failure' | a', after'⟩ <;>
    rw [ran, ran'] at outcome left
  · cases outcome with
    | error reason =>
      rw [bind_of_failed ran, bind_of_failed ran']
      exact ⟨.error reason, left⟩
  · cases outcome
  · cases outcome
  · cases outcome
    rw [bind_of_ran ran, bind_of_ran ran']
    exact next a after after' left

private theorem placeless_bind {p : Parse α} {f : α → Parse β} (first : Placeless p)
    (next : ∀ a, Placeless (f a)) : Placeless (p >>= f) :=
  parallel_bind first next

private theorem placeless_peek : Placeless peek := by
  intro s other same
  refine ⟨?_, same⟩
  simp only [peek, next_token, same]
  exact .ok

private theorem placeless_peek_second : Placeless peekSecond := by
  intro s other same
  have second := next_token s.tail
  rw [tail_tokens, same, ← tail_tokens, ← next_token] at second
  refine ⟨?_, same⟩
  change SameOutcome (.ok (s.tail.upcoming.head?.map PlacedToken.token))
    (.ok (other.tail.upcoming.head?.map PlacedToken.token))
  rw [second]
  exact .ok

private theorem parallel_position {f g : Nat → Parse β} (next : ∀ n m, Parallel (f n) (g m)) :
    Parallel (position >>= f) (position >>= g) :=
  fun s other same => next _ _ s other same

private theorem parallel_take {f g : Option PlacedToken → Parse β}
    (ended : Parallel (f none) (g none))
    (next : ∀ t n m, Parallel (f (some ⟨t, n⟩)) (g (some ⟨t, m⟩))) :
    Parallel (take >>= f) (take >>= g) := by
  rintro ⟨_ | ⟨⟨t, n⟩, more⟩, finish⟩ ⟨_ | ⟨⟨u, m⟩, others⟩, last⟩ same
  · exact ended _ _ same
  · cases same
  · cases same
  · obtain ⟨rfl, rest⟩ := List.cons.inj same
    exact next t n m ⟨more, finish⟩ ⟨others, last⟩ rest

/-- What needs no offset is put together from readers that need none. -/
theorem placeless_composes : Compositional @Placeless where
  pure := placeless_pure
  fail_here := placeless_fail_here
  peek := placeless_peek
  peek_second := placeless_peek_second
  advance := placeless_advance
  bind := placeless_bind
  measured := by
    intro α p each s other same
    dsimp only
    rw [tokens_length same]
    exact each _ s other same

end Primitives

section Rules

/-- A reader of the parts of an expression that does not depend on offsets. -/
def PlacelessParts (sub : ExprReader) : Prop :=
  ∀ binding, Placeless (sub binding)

variable {sub : ExprReader} (parts : PlacelessParts sub)

private theorem placeless_hash_key : Placeless hashKey := by
  refine parallel_take (placeless_fail_here _) fun t n m => ?_
  cases t with
  | identifier name | quotedIdentifier name => exact placeless_pure name
  | _ => exact parallel_fail rfl

private theorem placeless_slice : Placeless slice := by
  have parts : Placeless (sliceParts 2) := by
    refine placeless_composes.slice_parts (fun part => ?_) 2
    refine placeless_bind placeless_peek fun next => ?_
    split
    · exact placeless_pure _
    · exact parallel_position fun n m => parallel_fail rfl
    · exact placeless_fail_here _
  refine placeless_bind parts fun parts => parallel_position fun n m => ?_
  refine parallel_bind (placeless_composes.expect _ _) fun _ => ?_
  dsimp only
  split_ifs
  · exact parallel_fail rfl
  · exact placeless_pure _

include parts

private theorem placeless_projection_tail (binding : Nat) :
    Placeless (projectionTail sub binding) :=
  placeless_composes.projection_tail parts placeless_hash_key binding

private theorem placeless_filter (left : Expr) : Placeless (filter sub left) :=
  placeless_composes.filter parts placeless_hash_key left

/-- The offset of the first token shows in errors alone. -/
theorem parallel_leading (t : Token) (n m : Nat) :
    Parallel (leading sub ⟨t, n⟩) (leading sub ⟨t, m⟩) := by
  have refused (t : Token) : Parallel (fail (.unexpectedToken t "an expression" n) : Parse Expr)
      (fail (.unexpectedToken t "an expression" m)) := parallel_fail rfl
  cases t with
  | literal | rawString | identifier => exact placeless_pure _
  | number => exact refused _
  | quotedIdentifier name =>
    -- Only the mistake of a quoted name in front of a parenthesis shows the offset.
    refine parallel_bind placeless_peek fun next => ?_
    by_cases call : next = some (.symbol .leftParen)
    · subst call
      exact parallel_fail rfl
    · split
      · exact absurd rfl call
      · exact placeless_pure _
  | functionName name => exact placeless_composes.map _ (placeless_composes.arguments parts)
  | symbol s =>
    cases s with
    | current => exact placeless_pure _
    | star => exact placeless_composes.map _ (placeless_projection_tail parts 20)
    | flatten => exact placeless_composes.map _ (placeless_projection_tail parts 9)
    | filter => exact placeless_filter parts _
    | leftBracket =>
      exact placeless_composes.leading_bracket parts placeless_hash_key placeless_slice
    | leftBrace => exact placeless_composes.multi_select_hash parts placeless_hash_key
    | leftParen =>
      exact placeless_bind (parts 0) fun inner =>
        placeless_bind (placeless_composes.expect _ _) fun _ => placeless_pure inner
    | not => exact placeless_composes.map _ (parts 45)
    | reference => exact placeless_composes.map _ (parts 0)
    | _ => exact refused _

private theorem parallel_following (t : Token) (n m : Nat) (left : Expr) :
    Parallel (following sub ⟨t, n⟩ left) (following sub ⟨t, m⟩ left) := by
  have refused (t : Token) : Parallel (fail (.unexpectedToken t "an operator" n) : Parse Expr)
      (fail (.unexpectedToken t "an operator" m)) := parallel_fail rfl
  cases t with
  | symbol s =>
    cases s with
    | dot =>
      refine placeless_bind placeless_peek fun next => ?_
      split
      · exact placeless_bind placeless_advance fun _ =>
          placeless_composes.map _ (placeless_projection_tail parts 40)
      · exact placeless_composes.map _
          (placeless_composes.dot_tail parts placeless_hash_key 40)
    | pipe => exact placeless_composes.map _ (parts 1)
    | or => exact placeless_composes.map _ (parts 2)
    | and => exact placeless_composes.map _ (parts 3)
    | comparator op => exact placeless_composes.map _ (parts 5)
    | flatten => exact placeless_composes.map _ (placeless_projection_tail parts 9)
    | filter => exact placeless_filter parts left
    | leftBracket =>
      exact placeless_composes.following_bracket parts placeless_hash_key placeless_slice left
    | _ => exact refused _
  | _ => exact refused _

end Rules

namespace Expr

private theorem placeless_guard (limit : Option Nat) (nesting : Nat) :
    Placeless (guardNesting limit nesting) := by
  cases limit with
  | none => exact placeless_pure ()
  | some bound =>
    by_cases deep : bound ≤ nesting
    · simp only [guardNesting, if_pos deep]
      exact parallel_position fun n m => parallel_fail rfl
    · simp only [guardNesting, if_neg deep]
      exact placeless_pure ()

private theorem parallel_bounded (limit : Option Nat) (n m : Nat) (e : Expr) :
    Parallel (bounded limit n e) (bounded limit m e) := by
  cases limit with
  | none => exact placeless_pure e
  | some bound =>
    by_cases deep : e.deeperThan bound = true
    · simp only [bounded, if_pos deep]
      exact parallel_fail rfl
    · simp only [bounded, if_neg deep]
      exact placeless_pure e

private theorem placeless_continued (limit : Option Nat) (parts : PlacelessParts sub)
    (binding : Nat)
    (budget : Nat) : ∀ left, Placeless (continued limit sub binding budget left) := by
  induction budget with
  | zero => exact fun left => placeless_pure left
  | succ budget ih =>
    intro left
    refine placeless_bind placeless_peek fun next => ?_
    cases next with
    | none => exact placeless_pure left
    | some t =>
      by_cases holds : binding < t.bindingPower
      · simp only [if_pos holds]
        exact parallel_position fun n m => parallel_bind placeless_advance fun _ =>
          parallel_bind (parallel_following parts t n m left) fun next =>
            parallel_bind (parallel_bounded limit n m next) fun next => ih next
      · simp only [if_neg holds]
        exact placeless_pure left

/-- Every reader of expressions goes by tokens alone. -/
theorem placeless_reader (limit : Option Nat) (budget : Nat) :
    ∀ nesting, PlacelessParts (reader limit budget nesting) := by
  induction budget with
  | zero =>
    intro nesting binding
    exact placeless_bind (placeless_guard limit nesting) fun _ => placeless_fail_here _
  | succ budget ih =>
    intro nesting binding
    refine placeless_bind (placeless_guard limit nesting) fun _ =>
      parallel_take (placeless_fail_here _) fun t n m => ?_
    refine parallel_bind (parallel_leading (ih (nesting + 1)) t n m) fun left =>
      parallel_bind (parallel_bounded limit n m left) fun left s other same => ?_
    rw [tokens_length same]
    exact placeless_continued limit (ih (nesting + 1)) binding _ left s other same

private theorem placeless_all (limit : Option Nat) : Placeless (readAll limit) := by
  have whole : Placeless (readWithin limit 0) := by
    intro s other same
    unfold readWithin
    rw [tokens_length same]
    exact placeless_reader limit _ 0 0 s other same
  refine placeless_bind placeless_peek fun next => ?_
  cases next with
  | none => exact placeless_pure _
  | some t =>
    exact placeless_bind whole fun e =>
      placeless_bind (placeless_composes.expect_end _) fun _ => placeless_pure e

/-- Texts with the same tokens denote the same expression, or are refused for the same reason. -/
theorem parse_within_tokens (limit : Option Nat) (first : TokenStream.ofText text = .ok s)
    (second : TokenStream.ofText other = .ok u) (same : s.tokens = u.tokens) :
    SameOutcome (parseWithin limit text) (parseWithin limit other) := by
  simp only [parseWithin, first, second]
  exact (placeless_all limit s u same).1

end Expr

end JsonQuery
