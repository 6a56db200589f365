import JsonQuery.Proofs.LiteralText
import JsonQuery.Proofs.Offsets

/-! Rendering undoes lexing. The tokens of a text are legible where they stand: a literal holds what
its text denoted, and only the name of a function stands in front of a parenthesis. Hence their
texts with spaces between them split into the same tokens, and denote the same expression. -/
namespace JsonQuery

private theorem delimited_legible (denotes : delimitedToken what position inside = .ok t)
    (more : List Token) : t.Legible more := by
  unfold delimitedToken at denotes
  cases what with
  | quotedIdentifier =>
    dsimp only at denotes
    split at denotes
    · cases denotes
      trivial
    · cases denotes
  | rawString =>
    cases denotes
    trivial
  | literal =>
    dsimp only at denotes
    split at denotes
    · rename_i v read
      cases denotes
      obtain ⟨t, found, rfl⟩ := Option.map_eq_some_iff.mp read
      obtain ⟨⟨tree, rest⟩, value, same⟩ := Option.bind_eq_some_iff.mp found
      dsimp only at same
      split_ifs at same
      cases same
      exact literal_spells (Json.value_denotable _ _ _ _ value)
    · cases denotes

private theorem spells_legible (spells : Spells text t behind) (others : Lexes behind more) :
    t.Legible more := by
  cases spells with
  | symbol | number => trivial
  | delimited enclosed denotes => exact delimited_legible (denotes 0) more
  | identifier name stops noCall =>
    refine ⟨by rwa [String.toList_ofList], fun paren => ?_⟩
    rw [(lexes_opens others).mpr paren] at noCall
    cases noCall
  | functionName name stops call =>
    exact ⟨by rwa [String.toList_ofList], (lexes_opens others).mp call⟩

/-- What a text splits into is legible where it stands. -/
theorem lexes_legible (lexes : Lexes cs tokens) : Legible tokens := by
  induction lexes with
  | nil => trivial
  | blank _ _ ih => exact ih
  | token spells others ih => exact ⟨spells_legible spells others, ih⟩

namespace TokenStream

/-- The text of the tokens, with one space between them. -/
def render (s : TokenStream) : String :=
  String.ofList (spaced s.tokens)

/-- The rendered tokens of a text split into the same tokens again, and denote the same expression
if the text denotes one; otherwise both are refused, for the same reason. -/
theorem render_lexed (lexed : ofText text = .ok s) :
    ∃ again, ofText s.render = .ok again ∧ again.tokens = s.tokens ∧
      SameOutcome (Expr.parse s.render) (Expr.parse text) := by
  have legible : Legible s.tokens := lexes_legible (text_lexes lexed)
  have lexes : Lexes s.render.toList s.tokens := by
    rw [render, String.toList_ofList]
    exact legible_lexes s.tokens legible
  obtain ⟨again, relexed, same⟩ := lexes_text lexes
  exact ⟨again, relexed, same, Expr.parse_within_tokens _ relexed lexed same⟩

/-- A call without blanks, whose arguments hold escapes of all kinds. -/
theorem render_lexed_call :
    ∃ s, ofText "f('it\\'s',`\"\\\\\\`\"`)" = .ok s ∧
      s.render = "f ( 'it\\'s' , `\"\\\\\\`\"` )" ∧
      ∃ again, ofText s.render = .ok again ∧ again.tokens = s.tokens ∧
        SameOutcome (Expr.parse s.render) (Expr.parse "f('it\\'s',`\"\\\\\\`\"`)") := by
  have lexed : ofText "f('it\\'s',`\"\\\\\\`\"`)" =
      .ok ⟨[⟨.functionName "f", 0⟩, ⟨.symbol .leftParen, 1⟩, ⟨.rawString "it's", 2⟩,
        ⟨.symbol .comma, 9⟩, ⟨.literal (.str "\\`"), 10⟩, ⟨.symbol .rightParen, 18⟩], 19⟩ := by cbv
  exact ⟨_, lexed, by cbv, render_lexed lexed⟩

end TokenStream

end JsonQuery
