import JsonQuery.Expr.Parse
import JsonQuery.Proofs.Reading
import JsonQuery.Proofs.RuleChoices

/-! Whatever the readers of expressions return is what the taken tokens denote. Each rule is
followed once, for an arbitrary reader of its parts; the limits on nesting and depth can only stop a
reader and never change its result. -/
namespace JsonQuery
open Parse Rules

/-- The reader has taken the tokens of this part of an expression, and nothing else. -/
def Took (part : Part) (before : TokenStream) (e : Expr) (after : TokenStream) : Prop :=
  ∃ taken, Takes before taken after ∧ Reads part taken e after.tokens

/-- A reader of expressions that returns what the taken tokens denote. -/
def Faithful (sub : ExprReader) : Prop :=
  ∀ binding before e after, sub binding before = (.ok e, after) →
    Took (.operand binding) before e after

/-- A run over items with commas between them: every item is one run of its reader. -/
inductive Separated {α : Type} (item : Parse α) (close : Symbol) :
    List α → TokenStream → TokenStream → Prop where
  | last (ran : item before = (.ok a, middle)) (closed : Takes middle [.symbol close] after) :
      Separated item close [a] before after
  | next (ran : item before = (.ok a, middle)) (comma : Takes middle [.symbol .comma] next)
      (others : Separated item close as next after) : Separated item close (a :: as) before after

/-- The first token of an expression is among the taken ones. -/
theorem operand_starts (takes : Takes ⟨⟨t, offset⟩ :: more, finish⟩ taken after)
    (reads : Reads (.operand binding) taken e rest) : ∃ others, taken = t :: others := by
  obtain ⟨first, others, rfl⟩ := reads_cons reads
  obtain ⟨_, _, same, -⟩ := takes_cons.mp takes
  cases same
  exact ⟨others, rfl⟩

private theorem separated_run {item : Parse α} (budget : Nat) :
    ∀ as before, separated item close expected budget before = (.ok as, after) →
      Separated item close as before after := by
  induction budget with
  | zero =>
    intro as before ran
    obtain ⟨a, middle, -, failed⟩ := bind_ok.mp ran
    exact absurd failed (fail_here_not_ok _)
  | succ budget ih =>
    intro as before ran
    obtain ⟨a, middle, ranItem, ran⟩ := bind_ok.mp ran
    obtain ⟨_ | ⟨⟨t, offset⟩, more⟩, finish⟩ := middle
    · exact absurd ran (fail_here_not_ok _)
    · cases t with
      | symbol symbol =>
        by_cases comma : symbol = .comma
        · subst comma
          simp only [peek_bind, List.head?_cons, Option.map_some, advance_bind, tail_cons] at ran
          obtain ⟨as, others, rfl⟩ := map_ok.mp ran
          exact .next ranItem takes_first (ih _ _ others)
        · by_cases closing : symbol = close
          · subst closing
            have same : (pure [a] : Parse (List _)) ⟨more, finish⟩ = (.ok as, after) := by
              rw [← ran]
              cases symbol <;> first | exact absurd rfl comma | simp
            cases same
            exact .last ranItem takes_first
          · refine absurd ran ?_
            cases symbol <;> first | exact absurd rfl comma | simp [closing]
      | _ => exact absurd ran (fail_here_not_ok _)

private theorem comma_list_run {item : Parse α}
    (ran : commaList item close expected before = (.ok as, after)) :
    Separated item close as before after :=
  separated_run _ _ _ ran

private theorem items_took (faithful : Faithful sub)
    (run : Separated (sub 0) close es before after) :
    Took (.items close) before (.list es) after := by
  induction run with
  | last ran closed =>
    obtain ⟨taken, takes, reads⟩ := faithful _ _ _ _ ran
    rw [takes_tokens closed] at reads
    exact ⟨_, takes_append.mpr ⟨_, takes, closed⟩, .lastItem reads⟩
  | next ran comma others ih =>
    obtain ⟨first, takesFirst, reads⟩ := faithful _ _ _ _ ran
    obtain ⟨more, takesMore, readsMore⟩ := ih
    rw [takes_tokens comma, takes_tokens takesMore] at reads
    exact ⟨_, takes_append.mpr ⟨_, takesFirst, takes_append.mpr ⟨_, comma, takesMore⟩⟩,
      .nextItem reads readsMore⟩

private theorem multi_select_list_took (faithful : Faithful sub)
    (ran : multiSelectList sub before = (.ok e, after)) :
    Took (.items .rightBracket) before e after := by
  obtain ⟨es, items, rfl⟩ := map_ok.mp ran
  exact items_took faithful (comma_list_run items)

/-- An entry is a key, its colon and an expression. -/
theorem hash_entry_run (ran : hashEntry sub before = (.ok (name, e), after)) :
    ∃ t middle, t.key? = some name ∧ Takes before [t, .symbol .colon] middle ∧
      sub 0 middle = (.ok e, after) := by
  obtain ⟨key, afterKey, ranKey, ran⟩ := bind_ok.mp ran
  obtain ⟨done, middle, ranColon, ran⟩ := bind_ok.mp ran
  obtain ⟨value, ranValue, same⟩ := map_ok.mp ran
  cases same
  have colon := expect_ok.mp ranColon
  obtain ⟨_ | ⟨⟨t, offset⟩, more⟩, finish⟩ := before
  · simp [hashKey] at ranKey
  · cases t with
    | identifier name | quotedIdentifier name =>
      cases ranKey
      exact ⟨_, middle, rfl, takes_tail colon, ranValue⟩
    | _ => exact absurd ranKey (fail_not_ok _)

private theorem entries_took (faithful : Faithful sub)
    (run : Separated (hashEntry sub) .rightBrace entries before after) :
    Took .entries before (.hash entries) after := by
  induction run with
  | @last before entry middle after ran closed =>
    obtain ⟨t, next, key, takesKey, ranValue⟩ := hash_entry_run ran
    obtain ⟨taken, takes, reads⟩ := faithful _ _ _ _ ranValue
    rw [takes_tokens closed] at reads
    exact ⟨_, takes_append.mpr ⟨_, takesKey, takes_append.mpr ⟨_, takes, closed⟩⟩,
      .lastEntry key reads⟩
  | @next before entry middle next entries after ran comma others ih =>
    obtain ⟨t, next, key, takesKey, ranValue⟩ := hash_entry_run ran
    obtain ⟨first, takesFirst, reads⟩ := faithful _ _ _ _ ranValue
    obtain ⟨more, takesMore, readsMore⟩ := ih
    rw [takes_tokens comma, takes_tokens takesMore] at reads
    exact ⟨_, takes_append.mpr ⟨_, takesKey, takes_append.mpr ⟨_, takesFirst,
      takes_append.mpr ⟨_, comma, takesMore⟩⟩⟩, .nextEntry key reads readsMore⟩

private theorem multi_select_hash_took (faithful : Faithful sub)
    (ran : multiSelectHash sub before = (.ok e, after)) : Took .entries before e after := by
  obtain ⟨entries, items, rfl⟩ := map_ok.mp ran
  exact entries_took faithful (comma_list_run items)

private theorem arguments_took (faithful : Faithful sub)
    (ran : arguments sub before = (.ok es, after)) :
    (es = [] ∧ Takes before [.symbol .leftParen, .symbol .rightParen] after) ∨
      ∃ middle, Takes before [.symbol .leftParen] middle ∧
        Took (.items .rightParen) middle (.list es) after := by
  obtain ⟨done, ⟨more, finish⟩, ranParen, -⟩ := bind_ok.mp ran
  have paren := expect_ok.mp ranParen
  obtain ⟨offset, rfl⟩ := takes_single.mp paren
  by_cases empty : (TokenStream.tokens ⟨more, finish⟩).head? = some (.symbol .rightParen)
  · obtain _ | ⟨⟨t, next⟩, more⟩ := more
    · cases empty
    · obtain rfl : t = .symbol .rightParen := Option.some.inj empty
      rw [arguments_empty] at ran
      cases ran
      exact .inl ⟨rfl, takes_tail takes_first⟩
  · rw [arguments_list empty] at ran
    exact .inr ⟨_, paren, items_took faithful (comma_list_run ran)⟩

private theorem member_took (faithful : Faithful sub)
    (ran : dotTail sub binding before = (.ok e, after)) : Took (.member binding) before e after := by
  obtain ⟨_ | ⟨⟨t, offset⟩, more⟩, finish⟩ := before
  · simp [dotTail] at ran
  · have named (starts : t.StartsMember) :
        Took (.operand binding) ⟨⟨t, offset⟩ :: more, finish⟩ e after →
          Took (.member binding) ⟨⟨t, offset⟩ :: more, finish⟩ e after := by
      rintro ⟨taken, takes, reads⟩
      obtain ⟨_, rfl⟩ := operand_starts takes reads
      exact ⟨_, takes, .named starts reads⟩
    cases t with
    | identifier name | quotedIdentifier name | functionName name =>
      exact named trivial (faithful _ _ _ _ ran)
    | symbol symbol =>
      cases symbol with
      | star => exact named trivial (faithful _ _ _ _ ran)
      | leftBracket =>
        obtain ⟨taken, takes, reads⟩ := multi_select_list_took faithful ran
        exact ⟨_, takes_tail takes, .memberList reads⟩
      | leftBrace =>
        obtain ⟨taken, takes, reads⟩ := multi_select_hash_took faithful ran
        exact ⟨_, takes_tail takes, .memberHash reads⟩
      | _ => simp [dotTail] at ran
    | _ => simp [dotTail] at ran

private theorem projection_tail_took (faithful : Faithful sub)
    (ran : projectionTail sub binding before = (.ok e, after)) :
    Took (.projection binding) before e after := by
  have bare : (pure Expr.identity : Parse Expr) before = (.ok e, after) →
      Below projectionStop before.tokens → Took (.projection binding) before e after := by
    rintro same below
    cases same
    exact ⟨[], takes_nil.mpr rfl, .bare below⟩
  obtain ⟨_ | ⟨⟨t, offset⟩, more⟩, finish⟩ := before
  · exact bare ran (by simp [Below, TokenStream.tokens])
  · have below (power : t.bindingPower < projectionStop) :
        Below projectionStop (TokenStream.tokens ⟨⟨t, offset⟩ :: more, finish⟩) := by
      simpa [Below, TokenStream.tokens] using power
    have inner (opens : t = .symbol .leftBracket ∨ t = .symbol .filter) :
        Took (.operand binding) ⟨⟨t, offset⟩ :: more, finish⟩ e after →
          Took (.projection binding) ⟨⟨t, offset⟩ :: more, finish⟩ e after := by
      rintro ⟨taken, takes, reads⟩
      obtain ⟨_, rfl⟩ := operand_starts takes reads
      exact ⟨_, takes, .inner opens reads⟩
    cases t with
    | symbol symbol =>
      cases symbol with
      | leftBracket => exact inner (.inl rfl) (faithful _ _ _ _ ran)
      | filter => exact inner (.inr rfl) (faithful _ _ _ _ ran)
      | dot =>
        obtain ⟨taken, takes, reads⟩ := member_took faithful ran
        exact ⟨_, takes_tail takes, .innerDot reads⟩
      | star | leftBrace | leftParen | not =>
        simp [projectionTail, Token.bindingPower, projectionStop] at ran
      | _ => exact bare ran (below (by simp [Token.bindingPower, projectionStop]))
    | _ => exact bare ran (below (by simp [Token.bindingPower, projectionStop]))

private theorem filter_took (faithful : Faithful sub)
    (ran : Rules.filter sub left before = (.ok e, after)) (offset : Nat) :
    Took (.suffix left) ⟨⟨.symbol .filter, offset⟩ :: before.upcoming, before.finish⟩ e after := by
  obtain ⟨test, afterTest, ranTest, ran⟩ := bind_ok.mp ran
  obtain ⟨done, middle, ranBracket, ran⟩ := bind_ok.mp ran
  obtain ⟨p, ranTail, rfl⟩ := map_ok.mp ran
  have bracket := expect_ok.mp ranBracket
  obtain ⟨first, takesTest, readsTest⟩ := faithful _ _ _ _ ranTest
  obtain ⟨more, takesMore, readsMore⟩ := projection_tail_took faithful ranTail
  rw [takes_tokens bracket, takes_tokens takesMore] at readsTest
  exact ⟨_, takes_tail (takes_append.mpr ⟨_, takesTest, takes_append.mpr ⟨_, bracket, takesMore⟩⟩),
    .filter readsTest readsMore⟩

private theorem slice_parts_run (ran : sliceParts colons before = (.ok parts, after)) :
    ∃ first middle, Takes before (boundTokens first) middle ∧
      sliceRest colons first middle = (.ok parts, after) := by
  by_cases number : ∃ n, before.tokens.head? = some (.number n)
  · obtain ⟨n, head⟩ := number
    obtain ⟨_ | ⟨⟨t, offset⟩, more⟩, finish⟩ := before
    · cases head
    · obtain rfl : t = .number n := Option.some.inj head
      rw [slice_parts_number] at ran
      exact ⟨some n, _, takes_first, ran⟩
  · rw [slice_parts_other _ (not_exists.mp number)] at ran
    exact ⟨none, before, takes_nil.mpr rfl, ran⟩

/-- The parts of a slice are its bounds in order, and the closing bracket comes next. -/
theorem slice_rest_run (colons : Nat) :
    ∀ part parts before, sliceRest colons part before = (.ok parts, after) →
      ∃ others, parts = part :: others ∧ others.length ≤ colons ∧
        Takes before (others.flatMap fun bound => .symbol .colon :: boundTokens bound) after ∧
        after.tokens.head? = some (.symbol .rightBracket) := by
  induction colons with
  | zero =>
    intro part parts before ran
    obtain ⟨_ | ⟨⟨t, offset⟩, more⟩, finish⟩ := before
    · simp [sliceRest] at ran
    · cases t with
      | symbol symbol =>
        cases symbol with
        | rightBracket =>
          cases ran
          exact ⟨[], rfl, Nat.le_refl _, takes_nil.mpr rfl, rfl⟩
        | _ => simp [sliceRest] at ran
      | _ => simp [sliceRest] at ran
  | succ colons ih =>
    intro part parts before ran
    obtain ⟨_ | ⟨⟨t, offset⟩, more⟩, finish⟩ := before
    · simp [sliceRest] at ran
    · cases t with
      | symbol symbol =>
        cases symbol with
        | rightBracket =>
          cases ran
          exact ⟨[], rfl, Nat.zero_le _, takes_nil.mpr rfl, rfl⟩
        | colon =>
          simp only [sliceRest, peek_bind, List.head?_cons, Option.map_some, advance_bind,
            tail_cons] at ran
          obtain ⟨others, ranParts, rfl⟩ := map_ok.mp ran
          obtain ⟨first, middle, takesFirst, ranRest⟩ := slice_parts_run ranParts
          obtain ⟨others, rfl, short, takes, bracket⟩ := ih _ _ _ ranRest
          refine ⟨first :: others, rfl, Nat.succ_le_succ short, ?_, bracket⟩
          exact takes_tail (takes_append.mpr ⟨_, takesFirst, takes⟩)
        | _ => simp [sliceRest] at ran
      | _ => simp [sliceRest] at ran

/-- A slice has at least one colon when one of its first two tokens is a colon. -/
theorem slice_run (ran : Rules.slice before = (.ok e, after))
    (starts : OpensSlice before.tokens) :
    ∃ start stop step, e = .slice start stop step.join ∧ step.join ≠ some 0 ∧
      Takes before (sliceTokens start stop step ++ [.symbol .rightBracket]) after := by
  obtain ⟨parts, middle, ranParts, ran⟩ := bind_ok.mp ran
  simp only [position_bind] at ran
  obtain ⟨done, last, ranBracket, ran⟩ := bind_ok.mp ran
  obtain ⟨first, beyond, takesFirst, ranRest⟩ := slice_parts_run ranParts
  obtain ⟨others, rfl, short, takesOthers, bracket⟩ := slice_rest_run _ _ _ _ ranRest
  have taken := takes_append.mpr ⟨_, takesFirst,
    takes_append.mpr ⟨_, takesOthers, expect_ok.mp ranBracket⟩⟩
  have passed {value : Expr} {step : Option Int64} (ran : (if step = some 0
      then fail (.invalid .zeroStep middle.position) else pure value : Parse Expr) last =
        (.ok e, after)) : step ≠ some 0 ∧ e = value ∧ last = after := by
    split at ran
    · exact absurd ran (fail_not_ok _)
    · rename_i nonzero
      cases ran
      exact ⟨nonzero, rfl, rfl⟩
  match others with
  | [] =>
    obtain rfl := takes_nil.mp takesOthers
    have spelled := takes_tokens takesFirst
    cases first <;> simp_all [OpensSlice, boundTokens]
  | [stop] =>
    obtain ⟨-, rfl, rfl⟩ := passed ran
    refine ⟨first, stop, none, rfl, by simp, ?_⟩
    simpa [sliceTokens] using taken
  | [stop, step] =>
    obtain ⟨nonzero, rfl, rfl⟩ := passed ran
    refine ⟨first, stop, some step, rfl, nonzero, ?_⟩
    simpa [sliceTokens] using taken
  | _ :: _ :: _ :: _ => simp at short

private theorem slice_took (faithful : Faithful sub)
    (ran : indexOrSlice.sliced sub left before = (.ok e, after)) (offset : Nat)
    (starts : OpensSlice before.tokens) :
    Took (.suffix left) ⟨⟨.symbol .leftBracket, offset⟩ :: before.upcoming, before.finish⟩ e
      after := by
  obtain ⟨right, middle, ranSlice, ran⟩ := bind_ok.mp ran
  obtain ⟨p, ranTail, rfl⟩ := map_ok.mp ran
  obtain ⟨start, stop, step, rfl, nonzero, takesSlice⟩ := slice_run ranSlice starts
  obtain ⟨taken, takes, reads⟩ := projection_tail_took faithful ranTail
  refine ⟨_, takes_tail ?_, .slice nonzero reads⟩
  simpa using takes_append.mpr ⟨_, takesSlice, takes⟩

/-- Behind a bracket, a number or a colon can only go on as an index or a slice. -/
theorem index_or_slice_took (faithful : Faithful sub)
    (ran : indexOrSlice sub left before = (.ok e, after)) (offset : Nat)
    (starts : OpensSubscript before.tokens) :
    Took (.suffix left) ⟨⟨.symbol .leftBracket, offset⟩ :: before.upcoming, before.finish⟩ e
      after := by
  by_cases slice : OpensSlice before.tokens
  · rw [subscript_slice slice] at ran
    exact slice_took faithful ran offset slice
  · rcases starts with colon | ⟨n, number⟩
    · exact absurd (.inl colon) slice
    · obtain ⟨_ | ⟨⟨t, position⟩, more⟩, finish⟩ := before
      · cases number
      · obtain rfl : t = .number n := Option.some.inj number
        rw [subscript_index fun colon => slice (.inr ⟨n, rfl, colon⟩)] at ran
        obtain ⟨done, ranBracket, rfl⟩ := map_ok.mp ran
        exact ⟨_, takes_tail (takes_tail (expect_ok.mp ranBracket)), .index⟩

private theorem each_took (faithful : Faithful sub)
    (ran : (do return .eachItem left (← projectionTail sub 20) : Parse Expr) ⟨more, finish⟩ =
      (.ok e, after)) (first second third : Nat) :
    Took (.suffix left) ⟨⟨.symbol .leftBracket, first⟩ :: ⟨.symbol .star, second⟩ ::
      ⟨.symbol .rightBracket, third⟩ :: more, finish⟩ e after := by
  obtain ⟨p, ranTail, rfl⟩ := map_ok.mp ran
  obtain ⟨taken, takes, reads⟩ := projection_tail_took faithful ranTail
  exact ⟨_, takes_tail (takes_tail (takes_tail takes)), .each reads⟩

private theorem leading_bracket_took (faithful : Faithful sub)
    (ran : leadingBracket sub before = (.ok e, after)) (offset : Nat) :
    Took .leading ⟨⟨.symbol .leftBracket, offset⟩ :: before.upcoming, before.finish⟩ e after := by
  have suffix : Took (.suffix .identity)
      ⟨⟨.symbol .leftBracket, offset⟩ :: before.upcoming, before.finish⟩ e after →
        Took .leading ⟨⟨.symbol .leftBracket, offset⟩ :: before.upcoming, before.finish⟩ e after :=
    fun ⟨taken, takes, reads⟩ => ⟨taken, takes, .leadingSuffix reads⟩
  by_cases subscript : OpensSubscript before.tokens
  · rw [leading_bracket_subscript subscript] at ran
    exact suffix (index_or_slice_took faithful ran offset subscript)
  · by_cases wildcard : before.tokens.head? = some (.symbol .star) ∧
        before.tokens.tail.head? = some (.symbol .rightBracket)
    · obtain ⟨_ | ⟨⟨t, position⟩, _ | ⟨⟨second, next⟩, more⟩⟩, finish⟩ := before
      · cases wildcard.1
      · cases wildcard.2
      · obtain rfl : t = .symbol .star := Option.some.inj wildcard.1
        obtain rfl : second = .symbol .rightBracket := Option.some.inj wildcard.2
        exact suffix (each_took faithful ran offset position next)
    · have noWildcard := not_and.mp wildcard
      rw [leading_bracket_list (fun n number => subscript (.inr ⟨n, number⟩))
        (fun colon => subscript (.inl colon)) noWildcard] at ran
      obtain ⟨taken, takes, reads⟩ := multi_select_list_took faithful ran
      refine ⟨_, takes_tail takes, .list reads fun star => ?_⟩
      obtain ⟨t, u, others, rfl⟩ := items_cons reads
      simpa [takes_tokens takes] using noWildcard (by simpa [takes_tokens takes] using star)

private theorem following_bracket_took (faithful : Faithful sub)
    (ran : followingBracket sub left before = (.ok e, after)) (offset : Nat) :
    Took (.suffix left) ⟨⟨.symbol .leftBracket, offset⟩ :: before.upcoming, before.finish⟩ e
      after := by
  by_cases subscript : OpensSubscript before.tokens
  · rw [following_bracket_subscript subscript] at ran
    exact index_or_slice_took faithful ran offset subscript
  · rw [following_bracket_wildcard (fun colon => subscript (.inl colon))
      (fun n number => subscript (.inr ⟨n, number⟩))] at ran
    obtain ⟨done, middle, ranStar, ran⟩ := bind_ok.mp ran
    obtain ⟨done, last, ranBracket, ran⟩ := bind_ok.mp ran
    obtain ⟨second, rfl⟩ := takes_single.mp (expect_ok.mp ranStar)
    obtain ⟨third, rfl⟩ := takes_single.mp (expect_ok.mp ranBracket)
    exact each_took faithful ran offset second third

private theorem leading_took (faithful : Faithful sub)
    (ran : leading sub ⟨t, offset⟩ ⟨more, finish⟩ = (.ok e, after)) :
    Took .leading ⟨⟨t, offset⟩ :: more, finish⟩ e after := by
  cases t with
  | literal value =>
    cases ran
    exact ⟨_, takes_first, .literal⟩
  | rawString text =>
    cases ran
    exact ⟨_, takes_first, .rawString⟩
  | number n => exact absurd ran (fail_not_ok _)
  | identifier name =>
    cases ran
    exact ⟨_, takes_first, .identifier⟩
  | quotedIdentifier name =>
    by_cases call : (TokenStream.tokens ⟨more, finish⟩).head? = some (.symbol .leftParen)
    · obtain _ | ⟨⟨t, next⟩, more⟩ := more
      · cases call
      · obtain rfl : t = .symbol .leftParen := Option.some.inj call
        exact absurd ran (fail_not_ok _)
    · rw [leading_quoted call] at ran
      cases ran
      exact ⟨_, takes_first, .quotedIdentifier call⟩
  | functionName name =>
    obtain ⟨es, ranArgs, rfl⟩ := map_ok.mp ran
    rcases arguments_took faithful ranArgs with ⟨rfl, takes⟩ | ⟨middle, paren, taken, takes, reads⟩
    · exact ⟨_, takes_tail takes, .emptyCall⟩
    · exact ⟨_, takes_tail (takes_append.mpr ⟨_, paren, takes⟩), .call reads⟩
  | symbol symbol =>
    cases symbol with
    | current =>
      cases ran
      exact ⟨_, takes_first, .current⟩
    | star =>
      obtain ⟨p, ranTail, rfl⟩ := map_ok.mp ran
      obtain ⟨taken, takes, reads⟩ := projection_tail_took faithful ranTail
      exact ⟨_, takes_tail takes, .values reads⟩
    | flatten =>
      obtain ⟨p, ranTail, rfl⟩ := map_ok.mp ran
      obtain ⟨taken, takes, reads⟩ := projection_tail_took faithful ranTail
      exact ⟨_, takes_tail takes, .leadingSuffix (.flatten reads)⟩
    | filter =>
      obtain ⟨taken, takes, reads⟩ := filter_took faithful ran offset
      exact ⟨_, takes, .leadingSuffix reads⟩
    | leftBracket => exact leading_bracket_took faithful ran offset
    | leftBrace =>
      obtain ⟨taken, takes, reads⟩ := multi_select_hash_took faithful ran
      exact ⟨_, takes_tail takes, .hash reads⟩
    | leftParen =>
      obtain ⟨inner, middle, ranInner, ran⟩ := bind_ok.mp ran
      obtain ⟨done, ranParen, rfl⟩ := map_ok.mp ran
      have paren := expect_ok.mp ranParen
      obtain ⟨taken, takes, reads⟩ := faithful _ _ _ _ ranInner
      rw [takes_tokens paren] at reads
      exact ⟨_, takes_tail (takes_append.mpr ⟨_, takes, paren⟩), .group reads⟩
    | not =>
      obtain ⟨operand, ranOperand, rfl⟩ := map_ok.mp ran
      obtain ⟨taken, takes, reads⟩ := faithful _ _ _ _ ranOperand
      exact ⟨_, takes_tail takes, .not reads⟩
    | reference =>
      obtain ⟨operand, ranOperand, rfl⟩ := map_ok.mp ran
      obtain ⟨taken, takes, reads⟩ := faithful _ _ _ _ ranOperand
      exact ⟨_, takes_tail takes, .reference reads⟩
    | _ => exact absurd ran (fail_not_ok _)

private theorem connective_took (faithful : Faithful sub) (joins : t.connective? = some build)
    (ran : following sub ⟨t, offset⟩ left ⟨more, finish⟩ = (.ok e, after)) :
    Took (.following left) ⟨⟨t, offset⟩ :: more, finish⟩ e after := by
  rw [following_connective joins] at ran
  obtain ⟨right, ranRight, rfl⟩ := map_ok.mp ran
  obtain ⟨taken, takes, reads⟩ := faithful _ _ _ _ ranRight
  exact ⟨_, takes_tail takes, .connective joins reads⟩

private theorem dot_took (faithful : Faithful sub)
    (ran : following sub ⟨.symbol .dot, offset⟩ left ⟨more, finish⟩ = (.ok e, after)) :
    Took (.following left) ⟨⟨.symbol .dot, offset⟩ :: more, finish⟩ e after := by
  by_cases wildcard : (TokenStream.tokens ⟨more, finish⟩).head? = some (.symbol .star)
  · obtain _ | ⟨⟨t, next⟩, more⟩ := more
    · cases wildcard
    · obtain rfl : t = .symbol .star := Option.some.inj wildcard
      rw [following_dot_values] at ran
      obtain ⟨p, ranTail, rfl⟩ := map_ok.mp ran
      obtain ⟨taken, takes, reads⟩ := projection_tail_took faithful ranTail
      exact ⟨_, takes_tail (takes_tail takes), .dotValues reads⟩
  · rw [following_dot_member wildcard] at ran
    obtain ⟨right, ranMember, rfl⟩ := map_ok.mp ran
    obtain ⟨taken, takes, reads⟩ := member_took faithful ranMember
    refine ⟨_, takes_tail takes, .dot reads fun star => wildcard ?_⟩
    rw [takes_tokens takes, List.head?_append, star]
    rfl

private theorem following_took (faithful : Faithful sub)
    (ran : following sub ⟨t, offset⟩ left ⟨more, finish⟩ = (.ok e, after)) :
    Took (.following left) ⟨⟨t, offset⟩ :: more, finish⟩ e after := by
  have suffix : Took (.suffix left) ⟨⟨t, offset⟩ :: more, finish⟩ e after →
      Took (.following left) ⟨⟨t, offset⟩ :: more, finish⟩ e after :=
    fun ⟨taken, takes, reads⟩ => ⟨taken, takes, .followingSuffix reads⟩
  cases t with
  | symbol symbol =>
    cases symbol with
    | dot => exact dot_took faithful ran
    | pipe | or | and | comparator => exact connective_took faithful rfl ran
    | flatten =>
      obtain ⟨p, ranTail, rfl⟩ := map_ok.mp ran
      obtain ⟨taken, takes, reads⟩ := projection_tail_took faithful ranTail
      exact suffix ⟨_, takes_tail takes, .flatten reads⟩
    | filter => exact suffix (filter_took faithful ran offset)
    | leftBracket => exact suffix (following_bracket_took faithful ran offset)
    | _ => exact absurd ran (fail_not_ok _)
  | _ => exact absurd ran (fail_not_ok _)

end JsonQuery

namespace JsonQuery.Expr
open Parse Rules

theorem guard_nesting_ok (ran : guardNesting limit nesting before = (.ok done, after)) :
    before = after := by
  unfold guardNesting at ran
  cases limit with
  | none => cases ran; rfl
  | some n =>
    dsimp only at ran
    split at ran
    · exact absurd ran (fail_not_ok _)
    · cases ran
      rfl

theorem bounded_ok (ran : bounded limit offset e before = (.ok result, after)) :
    result = e ∧ before = after := by
  unfold bounded at ran
  cases limit with
  | none => cases ran; exact ⟨rfl, rfl⟩
  | some n =>
    dsimp only at ran
    split at ran
    · exact absurd ran (fail_not_ok _)
    · cases ran
      exact ⟨rfl, rfl⟩

/-- Every continuation takes a token, so a budget of as many rounds as there are tokens ends only
where no token is left. -/
theorem continued_took (faithful : Faithful sub) (budget : Nat) :
    ∀ left before, before.upcoming.length ≤ budget →
      continued limit sub binding budget left before = (.ok e, after) →
        Took (.continuing binding left) before e after := by
  induction budget with
  | zero =>
    intro left before short ran
    obtain ⟨_ | ⟨placed, more⟩, finish⟩ := before
    · cases ran
      exact ⟨[], takes_nil.mpr rfl, .stop (by simp [Below, TokenStream.tokens])⟩
    · simp at short
  | succ budget ih =>
    intro left before short ran
    obtain ⟨_ | ⟨⟨t, offset⟩, more⟩, finish⟩ := before
    · cases ran
      exact ⟨[], takes_nil.mpr rfl, .stop (by simp [Below, TokenStream.tokens])⟩
    · simp only [continued, peek_bind, List.head?_cons, Option.map_some] at ran
      split at ran
      · rename_i holds
        simp only [position_bind, advance_bind, tail_cons] at ran
        obtain ⟨next, middle, ranLink, ran⟩ := bind_ok.mp ran
        obtain ⟨checked, last, ranBound, ran⟩ := bind_ok.mp ran
        obtain ⟨rfl, rfl⟩ := bounded_ok ranBound
        obtain ⟨taken, takes, reads⟩ := following_took faithful ranLink
        obtain ⟨_, link, rfl⟩ := following_cons reads
        have shorter : middle.upcoming.length ≤ budget := by
          obtain ⟨placed, spelled, same⟩ := takes
          have length := congrArg (fun s => s.upcoming.length) same
          have placedLength := congrArg List.length spelled
          simp at short length placedLength
          omega
        obtain ⟨more, takesMore, readsMore⟩ := ih _ _ shorter ran
        obtain ⟨_, _, same, -⟩ := takes_cons.mp takes
        cases same
        rw [takes_tokens takesMore] at reads
        exact ⟨_, takes_append.mpr ⟨_, takes, takesMore⟩, .step holds reads readsMore⟩
      · rename_i loose
        cases ran
        refine ⟨[], takes_nil.mpr rfl, .stop ?_⟩
        simp only [Below, TokenStream.tokens, List.map_cons, List.head?_cons, Option.some.injEq,
          forall_eq']
        omega

/-- The limits never change what a reader returns. -/
theorem reader_faithful (limit : Option Nat) (budget : Nat) :
    ∀ nesting, Faithful (reader limit budget nesting) := by
  induction budget with
  | zero =>
    intro nesting binding before e after ran
    obtain ⟨done, middle, -, failed⟩ := bind_ok.mp ran
    exact absurd failed (fail_here_not_ok _)
  | succ budget ih =>
    intro nesting binding before e after ran
    obtain ⟨done, middle, ranGuard, ran⟩ := bind_ok.mp ran
    obtain rfl := guard_nesting_ok ranGuard
    obtain ⟨_ | ⟨⟨t, offset⟩, more⟩, finish⟩ := before
    · exact absurd ran (fail_here_not_ok _)
    · simp only [take_bind, List.head?_cons, tail_cons] at ran
      obtain ⟨left, middle, ranLeading, ran⟩ := bind_ok.mp ran
      obtain ⟨checked, last, ranBound, ran⟩ := bind_ok.mp ran
      obtain ⟨rfl, rfl⟩ := bounded_ok ranBound
      obtain ⟨first, takes, reads⟩ := leading_took (ih _) ranLeading
      obtain ⟨more, takesMore, readsMore⟩ := continued_took (ih _) _ _ _ (Nat.le_refl _) ran
      rw [takes_tokens takesMore] at reads
      exact ⟨_, takes_append.mpr ⟨_, takes, takesMore⟩, .operand reads readsMore⟩

/-- A text that parses splits into tokens, and these denote the expression as a whole. -/
theorem parse_within_reads (parsed : parseWithin limit text = .ok e) :
    ∃ s, TokenStream.ofText text = .ok s ∧
      ((s.tokens = [] ∧ e = .identity) ∨ Reads (.operand 0) s.tokens e []) := by
  unfold parseWithin at parsed
  split at parsed
  · cases parsed
  · rename_i s lexed
    refine ⟨s, lexed, ?_⟩
    have ran : readAll limit s = (.ok e, (readAll limit s).2) := Prod.ext parsed rfl
    obtain ⟨_ | ⟨placed, more⟩, finish⟩ := s
    · cases parsed
      exact .inl ⟨rfl, rfl⟩
    · obtain ⟨e, middle, ranReader, ran⟩ := bind_ok.mp
        (show (readWithin limit 0 >>= fun e => expectEnd "end of expression" >>= fun _ => pure e)
          ⟨placed :: more, finish⟩ = _ from ran)
      obtain ⟨taken, takes, reads⟩ := reader_faithful _ _ _ _ _ _ _ ranReader
      obtain ⟨done, ranEnd, rfl⟩ := map_ok.mp ran
      obtain ⟨_ | ⟨left, others⟩, finish⟩ := middle
      · rw [takes_tokens takes]
        exact .inr (by simpa [TokenStream.tokens] using reads)
      · simp [expectEnd] at ranEnd

end JsonQuery.Expr
