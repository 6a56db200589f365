import JsonQuery.Expr.Rules
import JsonQuery.Proofs.Reading
import JsonQuery.Proofs.StreamReaders

/-! Where a rule looks ahead, the next one or two tokens choose how it goes on. Each choice is an
equation between readers on one stream, so that it serves runs in both directions. -/
namespace JsonQuery
open Parse Rules

/-- The tokens behind a bracket begin an index or a slice. -/
def OpensSubscript (tokens : List Token) : Prop :=
  tokens.head? = some (.symbol .colon) ∨ ∃ n, tokens.head? = some (.number n)

/-- The tokens behind a bracket begin a slice, which shows a colon among its first two tokens. -/
def OpensSlice (tokens : List Token) : Prop :=
  tokens.head? = some (.symbol .colon) ∨
    ∃ n, tokens.head? = some (.number n) ∧ tokens.tail.head? = some (.symbol .colon)

variable {sub : ExprReader} {s : TokenStream} {left : Expr}

/-- Everything but an index, a slice or a wildcard is a list at the start of an expression. -/
theorem leading_bracket_list (noNumber : ∀ n, s.tokens.head? ≠ some (.number n))
    (noColon : s.tokens.head? ≠ some (.symbol .colon))
    (noWildcard : s.tokens.head? = some (.symbol .star) →
      s.tokens.tail.head? ≠ some (.symbol .rightBracket)) :
    leadingBracket sub s = multiSelectList sub s := by
  obtain ⟨_ | ⟨⟨t, offset⟩, more⟩, finish⟩ := s
  · rfl
  · cases t with
    | number n => exact absurd rfl (noNumber n)
    | symbol symbol =>
      cases symbol with
      | colon => exact absurd rfl noColon
      | star =>
        obtain _ | ⟨⟨second, next⟩, more⟩ := more
        · rfl
        · cases second with
          | symbol symbol => cases symbol <;> first | rfl | exact absurd rfl (noWildcard rfl)
          | _ => rfl
      | _ => cases more <;> rfl
    | _ => cases more <;> rfl

/-- A number or a colon makes a bracket an index or a slice in either place. -/
theorem leading_bracket_subscript (starts : OpensSubscript s.tokens) :
    leadingBracket sub s = indexOrSlice sub .identity s := by
  obtain ⟨_ | ⟨⟨t, offset⟩, more⟩, finish⟩ := s
  · rcases starts with colon | ⟨n, number⟩
    · cases colon
    · cases number
  · rcases starts with colon | ⟨n, number⟩
    · obtain rfl : t = .symbol .colon := Option.some.inj colon
      cases more <;> rfl
    · obtain rfl : t = .number n := Option.some.inj number
      rfl

theorem following_bracket_subscript (starts : OpensSubscript s.tokens) :
    followingBracket sub left s = indexOrSlice sub left s := by
  obtain ⟨_ | ⟨⟨t, offset⟩, more⟩, finish⟩ := s
  · rcases starts with colon | ⟨n, number⟩
    · cases colon
    · cases number
  · rcases starts with colon | ⟨n, number⟩
    · obtain rfl : t = .symbol .colon := Option.some.inj colon
      rfl
    · obtain rfl : t = .number n := Option.some.inj number
      rfl

theorem following_bracket_wildcard (noColon : s.tokens.head? ≠ some (.symbol .colon))
    (noNumber : ∀ n, s.tokens.head? ≠ some (.number n)) :
    followingBracket sub left s = (do
      expect .star "number, ':' or '*'"
      expect .rightBracket "']'"
      return .eachItem left (← projectionTail sub 20) : Parse Expr) s := by
  obtain ⟨_ | ⟨⟨t, offset⟩, more⟩, finish⟩ := s
  · rfl
  · cases t with
    | number n => exact absurd rfl (noNumber n)
    | symbol symbol => cases symbol <;> first | rfl | exact absurd rfl noColon
    | _ => rfl

/-- A slice shows a colon among its first two tokens. -/
theorem subscript_slice (starts : OpensSlice s.tokens) :
    indexOrSlice sub left s = indexOrSlice.sliced sub left s := by
  obtain ⟨_ | ⟨⟨t, offset⟩, more⟩, finish⟩ := s
  · rcases starts with colon | ⟨n, number, -⟩
    · cases colon
    · cases number
  · rcases starts with colon | ⟨n, number, colon⟩
    · obtain rfl : t = .symbol .colon := Option.some.inj colon
      rfl
    · obtain rfl : t = .number n := Option.some.inj number
      obtain _ | ⟨⟨second, next⟩, more⟩ := more
      · cases colon
      · obtain rfl : second = .symbol .colon := Option.some.inj colon
        rfl

theorem subscript_index
    (noColon : (TokenStream.tokens ⟨more, finish⟩).head? ≠ some (.symbol .colon)) :
    indexOrSlice sub left ⟨⟨.number n, offset⟩ :: more, finish⟩ = (do
      expect .rightBracket "']'"
      return subscript left (.index n) : Parse Expr) ⟨more, finish⟩ := by
  obtain _ | ⟨⟨second, next⟩, more⟩ := more
  · rfl
  · cases second with
    | symbol symbol => cases symbol <;> first | rfl | exact absurd rfl noColon
    | _ => rfl

theorem arguments_empty :
    arguments sub ⟨⟨.symbol .leftParen, offset⟩ :: ⟨.symbol .rightParen, next⟩ :: more, finish⟩ =
      (.ok [], ⟨more, finish⟩) := rfl

/-- Arguments that do not close at once are a list of items. -/
theorem arguments_list
    (nonempty : (TokenStream.tokens ⟨more, finish⟩).head? ≠ some (.symbol .rightParen)) :
    arguments sub ⟨⟨.symbol .leftParen, offset⟩ :: more, finish⟩ =
      commaList (sub 0) .rightParen "',' or ')'" ⟨more, finish⟩ := by
  obtain _ | ⟨⟨t, next⟩, more⟩ := more
  · rfl
  · cases t with
    | symbol symbol => cases symbol <;> first | rfl | exact absurd rfl nonempty
    | _ => rfl

theorem leading_quoted (noCall : s.tokens.head? ≠ some (.symbol .leftParen)) :
    leading sub ⟨.quotedIdentifier name, offset⟩ s = (.ok (.field name), s) := by
  obtain ⟨_ | ⟨⟨t, next⟩, more⟩, finish⟩ := s
  · rfl
  · cases t with
    | symbol symbol => cases symbol <;> first | rfl | exact absurd rfl noCall
    | _ => rfl

/-- Nothing is applied to the elements where the next token holds too loosely. -/
theorem projection_tail_bare (below : Below projectionStop s.tokens) :
    projectionTail sub binding s = (.ok .identity, s) := by
  obtain ⟨_ | ⟨⟨t, offset⟩, more⟩, finish⟩ := s
  · rfl
  · have power : t.bindingPower < projectionStop := below t rfl
    cases t with
    | symbol symbol =>
      cases symbol <;> first | rfl | exact absurd power (by decide)
    | _ => rfl

theorem following_dot_values :
    following sub ⟨.symbol .dot, offset⟩ left ⟨⟨.symbol .star, next⟩ :: more, finish⟩ =
      (do return .eachValue left (← projectionTail sub 40) : Parse Expr) ⟨more, finish⟩ := rfl

theorem following_dot_member (noWildcard : s.tokens.head? ≠ some (.symbol .star)) :
    following sub ⟨.symbol .dot, offset⟩ left s =
      (do return .dot left (← dotTail sub 40) : Parse Expr) s := by
  obtain ⟨_ | ⟨⟨t, next⟩, more⟩, finish⟩ := s
  · rfl
  · cases t with
    | symbol symbol => cases symbol <;> first | rfl | exact absurd rfl noWildcard
    | _ => rfl

/-- Every connective reads its right side with its own binding power. -/
theorem following_connective (joins : t.connective? = some build) :
    following sub ⟨t, offset⟩ left = (do return build left (← sub t.bindingPower)) := by
  obtain ⟨rfl, rfl⟩ | ⟨rfl, rfl⟩ | ⟨rfl, rfl⟩ | ⟨op, rfl, rfl⟩ := connective_cases joins <;> rfl

/-- How the parts of a slice are read on from behind the number of the first. -/
def sliceRest (colons : Nat) (part : Option Int64) : Parse (List (Option Int64)) := do
  match ← peek with
  | some (.symbol .rightBracket) => return [part]
  | some (.symbol .colon) =>
    match colons with
    | 0 => do fail (.invalid .tooManyColons (← position))
    | colons + 1 => do
      advance
      return part :: (← sliceParts colons)
  | _ => failHere "number, ':' or ']'"

theorem slice_parts_number (colons : Nat) :
    sliceParts colons ⟨⟨.number n, offset⟩ :: more, finish⟩ =
      sliceRest colons (some n) ⟨more, finish⟩ := by
  rw [sliceParts]
  rfl

theorem slice_parts_other (colons : Nat) (other : ∀ n, s.tokens.head? ≠ some (.number n)) :
    sliceParts colons s = sliceRest colons none s := by
  rw [sliceParts]
  obtain ⟨_ | ⟨⟨t, offset⟩, more⟩, finish⟩ := s
  · rfl
  · cases t with
    | number n => exact absurd rfl (other n)
    | _ => rfl

end JsonQuery
