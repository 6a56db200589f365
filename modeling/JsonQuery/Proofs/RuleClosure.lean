import JsonQuery.Proofs.RuleChoices

/-! Properties that pass from the primitive readers to the rules. Most rules only look ahead, go on,
call the reader of their parts and fail where they are, so a property that these steps have and that
sequences keep holds of the rules as well. Rules that take a token or an offset with them are not
among these. -/
namespace JsonQuery
open Parse Rules

/-- The primitive readers have the property, and putting readers together keeps it. -/
structure Compositional (holds : ∀ {α : Type}, Parse α → Prop) : Prop where
  pure : ∀ {α : Type} (a : α), holds (pure a : Parse α)
  fail_here : ∀ {α : Type} (expected : String), holds (failHere expected : Parse α)
  peek : holds peek
  peek_second : holds peekSecond
  advance : holds advance
  bind : ∀ {α β : Type} {p : Parse α} {f : α → Parse β}, holds p → (∀ a, holds (f a)) →
    holds (p >>= f)
  /-- A reader may have as many rounds as there are tokens left. -/
  measured : ∀ {α : Type} {p : Nat → Parse α}, (∀ rounds, holds (p rounds)) →
    holds fun s => p s.upcoming.length s

namespace Compositional

variable {holds : ∀ {α : Type}, Parse α → Prop} (closed : Compositional @holds)

include closed

theorem map {p : Parse α} (g : α → β) (first : holds p) : holds (do return g (← p)) :=
  closed.bind first fun a => closed.pure (g a)

theorem expect (symbol : Symbol) (expected : String) : holds (expect symbol expected) := by
  refine closed.bind closed.peek fun next => ?_
  split
  · split_ifs
    · exact closed.advance
    · exact closed.fail_here expected
  · exact closed.fail_here expected

theorem expect_end (expected : String) : holds (expectEnd expected) := by
  refine closed.bind closed.peek fun next => ?_
  cases next with
  | some t => exact closed.fail_here expected
  | none => exact closed.pure ()

private theorem comma_list {item : Parse α} (each : holds item) (close : Symbol)
    (expected : String) :
    holds (commaList item close expected) := by
  refine closed.measured fun budget => ?_
  induction budget with
  | zero => exact closed.bind each fun _ => closed.fail_here expected
  | succ budget ih =>
    refine closed.bind each fun a => closed.bind closed.peek fun next => ?_
    split
    · exact closed.bind closed.advance fun _ => closed.map _ ih
    · split_ifs
      · exact closed.bind closed.advance fun _ => closed.pure _
      · exact closed.fail_here expected
    · exact closed.fail_here expected

/-- Only the last colon that a slice may have is not gone past. -/
theorem slice_parts (last : ∀ part, holds (sliceRest 0 part)) (colons : Nat) :
    holds (sliceParts colons) := by
  -- The number is optional, and the reader goes on in the same way without it.
  have read (colons : Nat) (rest : ∀ part, holds (sliceRest colons part)) :
      holds (sliceParts colons) := by
    rw [sliceParts]
    refine closed.bind closed.peek fun next => ?_
    cases next with
    | none => exact rest none
    | some t =>
      cases t with
      | number n => exact closed.bind closed.advance fun _ => rest (some n)
      | _ => exact rest none
  induction colons with
  | zero => exact read 0 last
  | succ colons ih =>
    refine read (colons + 1) fun part => closed.bind closed.peek fun next => ?_
    split
    · exact closed.pure _
    · exact closed.bind closed.advance fun _ => closed.map _ ih
    · exact closed.fail_here _

section Parts

variable {sub : ExprReader} (parts : ∀ binding, holds (sub binding))

include parts

private theorem multi_select_list : holds (multiSelectList sub) :=
  closed.map _ (closed.comma_list (parts 0) _ _)

theorem multi_select_hash (key : holds hashKey) : holds (multiSelectHash sub) := by
  have entry : holds (hashEntry sub) :=
    closed.bind key fun _ => closed.bind (closed.expect _ _) fun _ => closed.map _ (parts 0)
  exact closed.map _ (closed.comma_list entry _ _)

theorem arguments : holds (arguments sub) := by
  refine closed.bind (closed.expect _ _) fun _ => closed.bind closed.peek fun next => ?_
  split
  · exact closed.bind closed.advance fun _ => closed.pure _
  · exact closed.comma_list (parts 0) _ _

theorem dot_tail (key : holds hashKey) (binding : Nat) : holds (dotTail sub binding) := by
  refine closed.bind closed.peek fun next => ?_
  split
  · exact parts binding
  · exact parts binding
  · exact parts binding
  · exact parts binding
  · exact closed.bind closed.advance fun _ => closed.multi_select_list parts
  · exact closed.bind closed.advance fun _ => closed.multi_select_hash parts key
  · exact closed.fail_here _

theorem projection_tail (key : holds hashKey) (binding : Nat) :
    holds (projectionTail sub binding) := by
  refine closed.bind closed.peek fun next => ?_
  split
  · exact parts binding
  · exact parts binding
  · exact closed.bind closed.advance fun _ => closed.dot_tail parts key binding
  · split_ifs
    · exact closed.pure _
    · exact closed.fail_here _
  · exact closed.pure _

theorem filter (key : holds hashKey) (left : Expr) : holds (filter sub left) :=
  closed.bind (parts 0) fun _ => closed.bind (closed.expect _ _) fun _ =>
    closed.map _ (closed.projection_tail parts key 21)

private theorem index_or_slice (key : holds hashKey) (slice : holds slice) (left : Expr) :
    holds (indexOrSlice sub left) := by
  have sliced : holds (indexOrSlice.sliced sub left) :=
    closed.bind slice fun right => closed.map _ (closed.projection_tail parts key 20)
  refine closed.bind closed.peek fun next => closed.bind closed.peek_second fun second => ?_
  split
  · exact sliced
  · exact sliced
  · exact closed.bind closed.advance fun _ =>
      closed.bind (closed.expect _ _) fun _ => closed.pure _
  · exact closed.fail_here _

theorem leading_bracket (key : holds hashKey) (slice : holds slice) :
    holds (leadingBracket sub) := by
  refine closed.bind closed.peek fun next => closed.bind closed.peek_second fun second => ?_
  split
  · exact closed.index_or_slice parts key slice _
  · exact closed.index_or_slice parts key slice _
  · exact closed.bind closed.advance fun _ => closed.bind closed.advance fun _ =>
      closed.map _ (closed.projection_tail parts key 20)
  · exact closed.multi_select_list parts

theorem following_bracket (key : holds hashKey) (slice : holds slice) (left : Expr) :
    holds (followingBracket sub left) := by
  refine closed.bind closed.peek fun next => ?_
  split
  · exact closed.index_or_slice parts key slice left
  · exact closed.index_or_slice parts key slice left
  · exact closed.bind (closed.expect _ _) fun _ => closed.bind (closed.expect _ _) fun _ =>
      closed.map _ (closed.projection_tail parts key 20)

end Parts

end Compositional

end JsonQuery
