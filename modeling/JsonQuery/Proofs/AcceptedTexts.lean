import JsonQuery.Proofs.ChainCompleteness
import JsonQuery.Proofs.DerivedChains
import JsonQuery.Proofs.ReadingCompleteness
import JsonQuery.Proofs.ReadingSoundness

/-! The parser takes every text of the documented grammar, unless it nests too deeply. It takes some
texts more, and the brackets behind operands tell which. -/
namespace JsonQuery

/-- No text of the documented grammar is refused for any other reason than its depth. -/
theorem Expr.parse_derived (lexed : TokenStream.ofText text = .ok s)
    (derives : Derives .expression s.tokens) :
    (∃ e, Expr.parse text = .ok e) ∨
      ∃ position, Expr.parse text = .error (.tooDeep maxExprDepth position) := by
  have sentence := derives_iff_documented.mp derives
  obtain ⟨e, reads, -⟩ := sentence_reads (m := .documented) nofun sentence
  obtain parsed | ⟨position, failed⟩ := reads_parse lexed reads
  · exact .inl ⟨e, parsed⟩
  · exact .inr ⟨position, failed⟩

theorem Expr.parse_derived_values :
    ∃ s, TokenStream.ofText "a.*[0]" = .ok s ∧ Derives .expression s.tokens ∧
      ((∃ e, Expr.parse "a.*[0]" = .ok e) ∨
        ∃ position, Expr.parse "a.*[0]" = .error (.tooDeep maxExprDepth position)) := by
  have lexed : TokenStream.ofText "a.*[0]" =
      .ok ⟨[⟨.identifier "a", 0⟩, ⟨.symbol .dot, 1⟩, ⟨.symbol .star, 2⟩,
        ⟨.symbol .leftBracket, 3⟩, ⟨.number 0, 4⟩, ⟨.symbol .rightBracket, 5⟩], 6⟩ := by rfl
  have left : Derives .expression [.identifier "a", .symbol .dot, .symbol .star] :=
    .dot (.named .identifier) .memberValues
  have derives := Derives.applied left (.index (n := 0))
  exact ⟨_, lexed, derives, parse_derived lexed derives⟩

/-- Of the texts that the parser takes, the documented grammar derives exactly those where no list
stands directly behind an operand. -/
theorem Expr.parse_derives_iff (parsed : Expr.parse text = .ok e) :
    ∃ s, TokenStream.ofText text = .ok s ∧
      (s.tokens = [] ∨ Derives .expression s.tokens ↔ BracketsApply s.tokens) := by
  obtain ⟨s, lexed, ⟨none, -⟩ | reads⟩ := parse_within_reads parsed
  · refine ⟨s, lexed, ?_⟩
    rw [none]
    exact ⟨fun _ => trivial, fun _ => .inl rfl⟩
  · have chained := reads_chained (m := .accepted) rfl rfl reads nofun
    have sentence := operand_sentence chained
    refine ⟨s, lexed, ?_, fun applies => .inr ?_⟩
    · rintro (none | derives)
      · rw [none]
        trivial
      · exact derives_applies derives
    · apply derives_iff_documented.mpr
      exact accepted_documented sentence [] [] nofun (by simpa using applies)

theorem Expr.parse_derives_index :
    Expr.parse "a[0]" = .ok (.bracket (.field "a") (.index 0)) ∧
      ∃ s, TokenStream.ofText "a[0]" = .ok s ∧
        (s.tokens = [] ∨ Derives .expression s.tokens ↔ BracketsApply s.tokens) := by
  have parsed : Expr.parse "a[0]" = .ok (.bracket (.field "a") (.index 0)) := by cbv
  exact ⟨parsed, parse_derives_iff parsed⟩

/-- Behind a projection a list is taken without a dot. -/
theorem Expr.parse_list_behind_projection :
    ∃ e s, Expr.parse "a[*][b]" = .ok e ∧ TokenStream.ofText "a[*][b]" = .ok s ∧
      ¬ (s.tokens = [] ∨ Derives .expression s.tokens) := by
  have parsed : Expr.parse "a[*][b]" = .ok (.eachItem (.field "a") (.list [.field "b"])) := by cbv
  have lexed : TokenStream.ofText "a[*][b]" =
      .ok ⟨[⟨.identifier "a", 0⟩, ⟨.symbol .leftBracket, 1⟩, ⟨.symbol .star, 2⟩,
        ⟨.symbol .rightBracket, 3⟩, ⟨.symbol .leftBracket, 4⟩, ⟨.identifier "b", 5⟩,
        ⟨.symbol .rightBracket, 6⟩], 7⟩ := by rfl
  refine ⟨_, _, parsed, lexed, ?_⟩
  rintro (none | derives)
  · cases none
  · have applies := derives_applies derives
    simp [TokenStream.tokens, BracketsApply, Subscripts, Token.EndsOperand] at applies

end JsonQuery
