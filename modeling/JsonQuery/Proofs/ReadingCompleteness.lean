import JsonQuery.Expr.Parse
import JsonQuery.Proofs.GroupNesting
import JsonQuery.Proofs.Height
import JsonQuery.Proofs.RuleChoices

/-! Every reading is found: where the tokens of a part denote an expression, its reader returns that
expression, unless a limit stops it. Together with the soundness of the readers this makes the
relation and the unlimited reader the same thing. A limit stops a reader only where the readers at
work, the nodes of the expression below each other and the groups around them are more than the
limit together. -/
namespace JsonQuery
open Parse Rules

/-- A reader of expressions, with so many readers at work around it, that finds every reading of at
most so many tokens. -/
def Answers (limit : Option Nat) (size depth : Nat) (sub : ExprReader) : Prop :=
  ∀ {need} binding before taken e after, Reads (.operand binding) taken e after.tokens →
    taken.length ≤ size → depth + e.height + groupNesting taken ≤ need → Takes before taken after →
      Yields limit need (sub binding) before e after

/-- The expression that a part goes on from is no taller than the result. -/
theorem base_height (reads : Reads part taken e rest) : part.base.height ≤ e.height := by
  have subscript (left right : Expr) : left.height ≤ (Rules.subscript left right).height := by
    cases left <;> simp [Rules.subscript, Expr.height, Expr.height_pos, Nat.succ_le_iff]
  induction reads with
  | stop below => exact Nat.le_refl _
  | step holds link tail link_ih tail_ih => exact Nat.le_trans link_ih tail_ih
  | leadingSuffix suffix ih | followingSuffix suffix ih => exact ih
  | connective joins operand ih =>
    rcases connective_cases joins with ⟨rfl, rfl⟩ | ⟨rfl, rfl⟩ | ⟨rfl, rfl⟩ | ⟨op, rfl, rfl⟩ <;>
      simp only [Part.base, Expr.height] <;> omega
  | dotValues | dot | flatten | filter | each =>
    simp only [Part.base, Expr.height]
    omega
  | index => exact subscript _ _
  | @slice _ _ _ left start stop step =>
    refine Nat.le_trans (subscript left (.slice start stop step.join)) ?_
    simp only [Expr.height]
    omega
  | _ => exact Expr.height_pos _

private theorem items_yield (answers : Answers limit size depth sub) (closes : close ≠ .comma)
    (budget : Nat) :
    ∀ before taken es, Reads (.items close) taken (.list es) after.tokens → taken.length ≤ size →
      depth + Expr.tallest es + groupNesting taken ≤ need → taken.length ≤ budget →
        Takes before taken after →
          Yields limit need (separated (sub 0) close expected budget) before es after := by
  induction budget with
  | zero =>
    intro before taken es reads _ _ short
    obtain ⟨t, u, others, rfl⟩ := items_cons reads
    simp at short
  | succ budget ih =>
    intro before taken es reads small room short takes
    cases reads with
    | lastItem item =>
      obtain ⟨middle, takesItem, closed⟩ := takes_append.mp takes
      rw [group_nesting_append (operand_balanced item)] at room
      rw [← List.singleton_append, ← takes_tokens closed] at item
      simp only [List.length_append, List.length_singleton, Expr.tallest] at small room
      refine yields_bind (answers _ _ _ _ _ item (by omega) (by omega) takesItem) ?_
      obtain ⟨offset, rfl⟩ := takes_single.mp closed
      refine yields_of_ran ?_
      cases close <;> first | exact absurd rfl closes | simp
    | @nextItem first e _ _ _ _ item others =>
      obtain ⟨middle, takesItem, takesMore⟩ := takes_append.mp takes
      rw [group_nesting_append (operand_balanced item)] at room
      rw [← takes_tokens takesMore] at item
      simp (disch := decide) only [List.length_append, List.length_cons, group_nesting_symbol,
        Expr.tallest] at small room short
      refine yields_bind (answers _ _ _ _ _ item (by omega) (by omega) takesItem) ?_
      obtain ⟨offset, more, rfl, takesOthers⟩ := takes_cons.mp takesMore
      have rest : Yields limit need
          (do return e :: (← separated (sub 0) close expected budget)) _ _ after :=
        yields_map (ih _ _ _ others (by omega) (by omega) (by omega) takesOthers)
      exact rest

private theorem taken_short (takes : Takes before taken after) :
    taken.length ≤ before.upcoming.length := by
  obtain ⟨placed, rfl, rfl⟩ := takes
  simp

private theorem multi_select_list_yields (answers : Answers limit size depth sub)
    (reads : Reads (.items .rightBracket) taken e after.tokens) (small : taken.length ≤ size)
    (room : depth + e.height + groupNesting taken ≤ need + 1) (takes : Takes before taken after) :
    Yields limit need (multiSelectList sub) before e after := by
  obtain ⟨es, rfl⟩ := items_list reads
  simp only [Expr.height] at room
  exact yields_map (items_yield answers (by decide) _ _ _ _ reads small (by omega)
    (taken_short takes) takes)

private theorem hash_entry_yields (answers : Answers limit size depth sub)
    (key : t.key? = some name)
    (value : Reads (.operand 0) taken e after.tokens) (small : taken.length ≤ size)
    (room : depth + e.height + groupNesting taken ≤ need)
    (takes : Takes before (t :: .symbol .colon :: taken) after) :
    Yields limit need (hashEntry sub) before (name, e) after := by
  obtain ⟨middle, takesKey, takesValue⟩ := takes_append.mp
    (show Takes before ([t, .symbol .colon] ++ taken) after from takes)
  obtain ⟨offset, more, rfl, colon⟩ := takes_cons.mp takesKey
  have ranKey : Yields limit need hashKey ⟨⟨t, offset⟩ :: more, middle.finish⟩ name
      ⟨more, middle.finish⟩ := by
    rcases key_cases key with rfl | rfl <;> exact yields_of_ran rfl
  exact yields_bind ranKey (yields_bind (yields_expect colon)
    (yields_map (answers _ _ _ _ _ value small room takesValue)))

private theorem entries_yield (answers : Answers limit size depth sub) (budget : Nat) :
    ∀ before taken entries, Reads .entries taken (.hash entries) after.tokens →
      taken.length ≤ size → depth + Expr.tallestEntry entries + groupNesting taken ≤ need →
        taken.length ≤ budget → Takes before taken after →
          Yields limit need (separated (hashEntry sub) .rightBrace expected budget) before entries
            after := by
  induction budget with
  | zero =>
    intro before taken entries reads _ _ short
    cases reads <;> simp at short
  | succ budget ih =>
    intro before taken entries reads small room short takes
    cases reads with
    | @lastEntry name taken e _ t key value =>
      obtain ⟨middle, takesEntry, closed⟩ := takes_append.mp
        (show Takes before ((t :: .symbol .colon :: taken) ++ [.symbol .rightBrace]) after
          from takes)
      rw [group_nesting_plain (key_plain key)] at room
      simp (disch := decide) only [group_nesting_symbol, Expr.tallestEntry,
        group_nesting_append (operand_balanced value)] at room
      rw [← List.singleton_append, ← takes_tokens closed] at value
      simp only [List.length_append, List.length_cons, List.length_nil] at small
      refine yields_bind (hash_entry_yields answers key value (by omega) (by omega) takesEntry) ?_
      obtain ⟨offset, rfl⟩ := takes_single.mp closed
      exact yields_of_ran rfl
    | @nextEntry name first e _ _ _ t key value others =>
      obtain ⟨middle, takesEntry, takesMore⟩ := takes_append.mp
        (show Takes before ((t :: .symbol .colon :: first) ++ _) after from takes)
      rw [group_nesting_plain (key_plain key)] at room
      simp (disch := decide) only [group_nesting_symbol, Expr.tallestEntry,
        group_nesting_append (operand_balanced value)] at room
      rw [← takes_tokens takesMore] at value
      simp only [List.length_append, List.length_cons] at small short
      refine yields_bind (hash_entry_yields answers key value (by omega) (by omega) takesEntry) ?_
      obtain ⟨offset, more, rfl, takesOthers⟩ := takes_cons.mp takesMore
      have rest : Yields limit need
          (do return (name, e) :: (← separated (hashEntry sub) .rightBrace expected budget))
          _ _ after :=
        yields_map (ih _ _ _ others (by omega) (by omega) (by omega) takesOthers)
      exact rest

private theorem multi_select_hash_yields (answers : Answers limit size depth sub)
    (reads : Reads .entries taken e after.tokens) (small : taken.length ≤ size)
    (room : depth + e.height + groupNesting taken ≤ need + 1) (takes : Takes before taken after) :
    Yields limit need (multiSelectHash sub) before e after := by
  obtain ⟨entries, rfl⟩ := entries_hash reads
  simp only [Expr.height] at room
  exact yields_map (entries_yield answers _ _ _ _ reads small (by omega) (taken_short takes) takes)

private theorem member_yields (answers : Answers limit size depth sub)
    (reads : Reads (.member binding) taken e after.tokens) (small : taken.length ≤ size)
    (room : depth + e.height + groupNesting taken ≤ need) (takes : Takes before taken after) :
    Yields limit need (dotTail sub binding) before e after := by
  cases reads with
  | @named _ t _ _ _ starts operand =>
    have result := answers _ _ _ _ _ operand small room takes
    obtain ⟨offset, more, rfl, -⟩ := takes_cons.mp takes
    cases t with
    | identifier name | quotedIdentifier name | functionName name => exact result
    | symbol symbol =>
      cases symbol with
      | star => exact result
      | _ => exact absurd starts id
    | _ => exact absurd starts id
  | memberList items =>
    obtain ⟨offset, more, rfl, takesItems⟩ := takes_cons.mp takes
    have result := multi_select_list_yields answers items (Nat.le_of_succ_le small)
      (Nat.le_succ_of_le room) takesItems
    exact result
  | memberHash entries =>
    obtain ⟨offset, more, rfl, takesEntries⟩ := takes_cons.mp takes
    have result := multi_select_hash_yields answers entries (Nat.le_of_succ_le small)
      (Nat.le_succ_of_le room) takesEntries
    exact result

private theorem projection_tail_yields (answers : Answers limit size depth sub)
    (reads : Reads (.projection binding) taken e after.tokens) (small : taken.length ≤ size)
    (room : depth + e.height + groupNesting taken ≤ need) (takes : Takes before taken after) :
    Yields limit need (projectionTail sub binding) before e after := by
  cases reads with
  | bare below =>
    obtain rfl := takes_nil.mp takes
    exact yields_of_ran (projection_tail_bare below)
  | inner opens operand =>
    have result := answers _ _ _ _ _ operand small room takes
    obtain ⟨offset, more, rfl, -⟩ := takes_cons.mp takes
    rcases opens with rfl | rfl <;> exact result
  | innerDot member =>
    obtain ⟨offset, more, rfl, takesMember⟩ := takes_cons.mp takes
    have result := member_yields answers member (Nat.le_of_succ_le small) room takesMember
    exact result

private theorem filter_yields (answers : Answers limit size depth sub)
    (predicate : Reads (.operand 0) first test (.symbol .rightBracket :: more ++ after.tokens))
    (tail : Reads (.projection 21) more p after.tokens)
    (small : (first ++ .symbol .rightBracket :: more).length ≤ size)
    (room : depth + max test.height p.height +
      groupNesting (first ++ .symbol .rightBracket :: more) ≤ need)
    (takes : Takes before (first ++ .symbol .rightBracket :: more) after) :
    Yields limit need (Rules.filter sub left) before (.filter left test p) after := by
  obtain ⟨middle, takesTest, takesRest⟩ := takes_append.mp takes
  obtain ⟨last, closed, takesTail⟩ := takes_append.mp
    (show Takes middle ([.symbol .rightBracket] ++ more) after from takesRest)
  rw [group_nesting_append (operand_balanced predicate)] at room
  simp (disch := decide) only [group_nesting_symbol] at room
  rw [← takes_tokens takesRest] at predicate
  simp only [List.length_append, List.length_cons] at small
  exact yields_bind (answers _ _ _ _ _ predicate (by omega) (by omega) takesTest)
    (yields_bind (yields_expect closed)
      (yields_map (projection_tail_yields answers tail (by omega) (by omega) takesTail)))

private theorem slice_parts_bound (takes : Takes before (boundTokens first) middle)
    (other : ∀ n, middle.tokens.head? ≠ some (.number n)) :
    sliceParts colons before = sliceRest colons first middle := by
  cases first with
  | none =>
    obtain rfl := takes_nil.mp takes
    exact slice_parts_other colons other
  | some n =>
    obtain ⟨offset, rfl⟩ := takes_single.mp takes
    exact slice_parts_number colons

private theorem slice_parts_found (others : List (Option Int64))
    (bracket : after.tokens.head? = some (.symbol .rightBracket)) :
    ∀ colons first before, others.length ≤ colons →
      Takes before
        (boundTokens first ++ others.flatMap fun bound => .symbol .colon :: boundTokens bound)
        after →
      sliceParts colons before = (.ok (first :: others), after) := by
  induction others with
  | nil =>
    intro colons first before _ takes
    rw [List.flatMap_nil, List.append_nil] at takes
    rw [slice_parts_bound takes (by simp [bracket])]
    obtain ⟨_ | ⟨⟨t, offset⟩, more⟩, finish⟩ := after
    · cases bracket
    · obtain rfl : t = .symbol .rightBracket := Option.some.inj bracket
      rfl
  | cons second others ih =>
    intro colons first before short takes
    obtain ⟨colons, rfl⟩ : ∃ fewer, colons = fewer + 1 := by
      cases colons with
      | zero => simp at short
      | succ fewer => exact ⟨fewer, rfl⟩
    obtain ⟨middle, takesFirst, takesOthers⟩ := takes_append.mp takes
    rw [List.flatMap_cons, List.cons_append] at takesOthers
    rw [slice_parts_bound takesFirst (by simp [takes_tokens takesOthers])]
    obtain ⟨offset, more, rfl, takesSecond⟩ := takes_cons.mp takesOthers
    have rest := ih colons second _ (Nat.le_of_succ_le_succ short) takesSecond
    simp only [sliceRest, peek_bind, List.head?_cons, Option.map_some, advance_bind, tail_cons]
    exact bind_ok.mpr ⟨_, _, rest, rfl⟩

private theorem slice_found (nonzero : step.join ≠ some 0)
    (takes : Takes before (sliceTokens start stop step ++ [.symbol .rightBracket]) after) :
    Rules.slice before = (.ok (.slice start stop step.join), after) := by
  obtain ⟨middle, takesParts, closed⟩ := takes_append.mp takes
  have bracket : middle.tokens.head? = some (.symbol .rightBracket) := by
    rw [takes_tokens closed]
    rfl
  have short : (stop :: step.toList).length ≤ 2 := by
    cases step <;> simp
  have parts := slice_parts_found (stop :: step.toList) bracket 2 start before short (by
    cases step <;> simpa [sliceTokens] using takesParts)
  refine bind_ok.mpr ⟨_, _, parts, ?_⟩
  simp only [position_bind]
  refine bind_ok.mpr ⟨(), after, expect_ok.mpr closed, ?_⟩
  cases step with
  | none => rfl
  | some bound =>
    have nonzero : bound ≠ some 0 := nonzero
    simp [nonzero]

private theorem slice_starts {s : TokenStream} (start stop : Option Int64)
    (step : Option (Option Int64))
    (tokens : s.tokens = sliceTokens start stop step ++ rest) :
    OpensSlice s.tokens := by
  rw [tokens]
  cases start with
  | none => exact .inl rfl
  | some n => exact .inr ⟨n, rfl, rfl⟩

/-- An index or a slice is found behind its bracket. -/
theorem subscript_yields (answers : Answers limit size (depth + 1) sub)
    (reads : Reads (.suffix left) (.symbol .leftBracket :: taken) e after.tokens)
    (noWildcard : taken.head? ≠ some (.symbol .star)) (small : taken.length ≤ size)
    (room : depth + e.height + groupNesting taken ≤ need) (takes : Takes before taken after) :
    OpensSubscript before.tokens ∧
      Yields limit need (indexOrSlice sub left) before e after := by
  cases reads with
  | @index _ n =>
    obtain ⟨offset, more, rfl, closed⟩ := takes_cons.mp takes
    have noColon : (TokenStream.tokens ⟨more, after.finish⟩).head? ≠ some (.symbol .colon) := by
      simp [takes_tokens closed]
    refine ⟨.inr ⟨n, rfl⟩, ?_⟩
    unfold Yields
    rw [subscript_index noColon]
    exact yields_map (yields_expect closed)
  | @slice more p _ _ start stop step nonzero tail =>
    have tokens := takes_tokens takes
    rw [List.append_assoc] at tokens
    have starts := slice_starts start stop step tokens
    obtain ⟨middle, takesSlice, takesTail⟩ := takes_append.mp (show Takes before
      ((sliceTokens start stop step ++ [.symbol .rightBracket]) ++ more) after by simpa using takes)
    rw [group_nesting_append (balanced_slice _ _ _)] at room
    simp (disch := decide) only [List.length_append, List.length_cons, group_nesting_symbol,
      Expr.height] at small room
    refine ⟨starts.imp_right fun ⟨n, number, _⟩ => ⟨n, number⟩, ?_⟩
    unfold Yields
    rw [subscript_slice starts]
    exact yields_bind (yields_of_ran (slice_found nonzero takesSlice))
      (yields_map (projection_tail_yields answers tail (by omega) (by omega) takesTail))
  | each tail => exact absurd rfl noWildcard

private theorem leading_bracket_yields (answers : Answers limit size (depth + 1) sub)
    (reads : Reads (.suffix .identity) (.symbol .leftBracket :: taken) e after.tokens)
    (small : taken.length ≤ size) (room : depth + e.height + groupNesting taken ≤ need)
    (takes : Takes before taken after) : Yields limit need (leadingBracket sub) before e after := by
  by_cases wildcard : taken.head? = some (.symbol .star)
  · cases reads with
    | index => cases wildcard
    | @slice _ _ _ _ start => cases start <;> simp [sliceTokens, boundTokens] at wildcard
    | @each more p _ _ tail =>
      obtain ⟨second, next, rfl, takesRest⟩ := takes_cons.mp takes
      obtain ⟨third, more, same, takesTail⟩ := takes_cons.mp takesRest
      cases same
      simp (disch := decide) only [List.length_cons, group_nesting_symbol, Expr.height]
        at small room
      have result : Yields limit need
          (do return Expr.eachItem .identity (← projectionTail sub 20)) _ _ after :=
        yields_map (projection_tail_yields answers tail (by omega) (by omega) takesTail)
      exact result
  · obtain ⟨starts, result⟩ := subscript_yields answers reads wildcard small room takes
    unfold Yields
    rw [leading_bracket_subscript starts]
    exact result

private theorem following_bracket_yields (answers : Answers limit size (depth + 1) sub)
    (reads : Reads (.suffix left) (.symbol .leftBracket :: taken) e after.tokens)
    (small : taken.length ≤ size) (room : depth + e.height + groupNesting taken ≤ need)
    (takes : Takes before taken after) :
    Yields limit need (followingBracket sub left) before e after := by
  by_cases wildcard : taken.head? = some (.symbol .star)
  · cases reads with
    | index => cases wildcard
    | @slice _ _ _ _ start => cases start <;> simp [sliceTokens, boundTokens] at wildcard
    | @each more p _ _ tail =>
      have tokens := takes_tokens takes
      obtain ⟨middle, takesStar, takesRest⟩ := takes_append.mp
        (show Takes before ([.symbol .star] ++ (.symbol .rightBracket :: more)) after from takes)
      obtain ⟨last, closed, takesTail⟩ := takes_append.mp
        (show Takes middle ([.symbol .rightBracket] ++ more) after from takesRest)
      simp (disch := decide) only [List.length_cons, group_nesting_symbol, Expr.height]
        at small room
      unfold Yields
      rw [following_bracket_wildcard (by simp [tokens]) (by simp [tokens])]
      exact yields_bind (yields_expect takesStar) (yields_bind (yields_expect closed)
        (yields_map (projection_tail_yields answers tail (by omega) (by omega) takesTail)))
  · obtain ⟨starts, result⟩ := subscript_yields answers reads wildcard small room takes
    unfold Yields
    rw [following_bracket_subscript starts]
    exact result

private theorem list_yields (answers : Answers limit size (depth + 1) sub)
    (reads : Reads (.items .rightBracket) taken e after.tokens)
    (noWildcard : taken.head? = some (.symbol .star) →
      taken.tail.head? ≠ some (.symbol .rightBracket))
    (small : taken.length ≤ size) (room : depth + e.height + groupNesting taken ≤ need)
    (takes : Takes before taken after) : Yields limit need (leadingBracket sub) before e after := by
  have result : Yields limit need (multiSelectList sub) before e after :=
    multi_select_list_yields answers reads small (by omega) takes
  obtain ⟨noNumber, noColon, -⟩ := items_begin reads
  obtain ⟨t, u, others, rfl⟩ := items_cons reads
  unfold Yields
  rw [leading_bracket_list]
  · exact result
  · simpa [takes_tokens takes] using noNumber
  · simpa [takes_tokens takes] using noColon
  · simpa [takes_tokens takes] using noWildcard

private theorem call_yields (answers : Answers limit size depth sub)
    (reads : Reads (.items .rightParen) taken (.list es) after.tokens) (small : taken.length ≤ size)
    (room : depth + Expr.tallest es + groupNesting taken ≤ need)
    (takes : Takes before (.symbol .leftParen :: taken) after) :
    Yields limit need (arguments sub) before es after := by
  obtain ⟨offset, more, rfl, takesItems⟩ := takes_cons.mp takes
  have nonempty : (TokenStream.tokens ⟨more, after.finish⟩).head? ≠ some (.symbol .rightParen) := by
    obtain ⟨t, u, others, rfl⟩ := items_cons reads
    simpa [takes_tokens takesItems] using (items_begin reads).2.2
  unfold Yields
  rw [arguments_list nonempty]
  exact items_yield answers (by decide) _ _ _ _ reads small room (taken_short takesItems) takesItems

/-- The beginning of an expression is found behind its first token. -/
theorem leading_yields (answers : Answers limit size (depth + 1) sub)
    (reads : Reads .leading (t :: taken) e after.tokens) (small : taken.length ≤ size)
    (room : depth + e.height + groupNesting (t :: taken) ≤ need)
    (takes : Takes before taken after) (offset : Nat) :
    Yields limit need (leading sub ⟨t, offset⟩) before e after := by
  cases reads with
  | literal | rawString | identifier | current =>
    obtain rfl := takes_nil.mp takes
    exact yields_of_ran rfl
  | quotedIdentifier noCall =>
    obtain rfl := takes_nil.mp takes
    exact yields_of_ran (leading_quoted noCall)
  | emptyCall =>
    obtain ⟨first, more, rfl, closing⟩ := takes_cons.mp takes
    obtain ⟨second, same⟩ := takes_single.mp closing
    cases same
    exact yields_of_ran rfl
  | call args =>
    rw [group_nesting_arguments args, Expr.height] at room
    exact yields_map (call_yields answers args (Nat.le_of_succ_le small) (by omega) takes)
  | values tail =>
    simp (disch := decide) only [group_nesting_symbol, Expr.height] at room
    exact yields_map (projection_tail_yields answers tail small (by omega) takes)
  | list items noWildcard =>
    simp (disch := decide) only [group_nesting_symbol] at room
    exact list_yields answers items noWildcard small room takes
  | hash entries =>
    simp (disch := decide) only [group_nesting_symbol] at room
    exact multi_select_hash_yields answers entries small (by omega) takes
  | group inner =>
    obtain ⟨middle, takesInner, closed⟩ := takes_append.mp takes
    rw [group_nesting_group (operand_balanced inner)] at room
    rw [← List.singleton_append, ← takes_tokens closed] at inner
    simp only [List.length_append, List.length_singleton] at small
    exact yields_bind (answers _ _ _ _ _ inner (by omega) (by omega) takesInner)
      (yields_map (yields_expect closed))
  | not operand | reference operand =>
    simp (disch := decide) only [group_nesting_symbol, Expr.height] at room
    exact yields_map (answers _ _ _ _ _ operand small (by omega) takes)
  | leadingSuffix suffix =>
    cases suffix with
    | flatten tail =>
      simp (disch := decide) only [group_nesting_symbol, Expr.height] at room
      exact yields_map (projection_tail_yields answers tail small (by omega) takes)
    | filter predicate tail =>
      simp (disch := decide) only [group_nesting_symbol, Expr.height] at room
      exact filter_yields answers predicate tail small (by omega) takes
    | index => exact leading_bracket_yields answers .index small room takes
    | slice nonzero tail =>
      exact leading_bracket_yields answers (.slice nonzero tail) small room takes
    | each tail => exact leading_bracket_yields answers (.each tail) small room takes

/-- A continuation is found behind its first token. -/
theorem following_yields (answers : Answers limit size (depth + 1) sub)
    (reads : Reads (.following left) (t :: taken) e after.tokens) (small : taken.length ≤ size)
    (room : depth + e.height + groupNesting (t :: taken) ≤ need)
    (takes : Takes before taken after) (offset : Nat) :
    Yields limit need (following sub ⟨t, offset⟩ left) before e after := by
  cases reads with
  | followingSuffix suffix =>
    cases suffix with
    | flatten tail =>
      simp (disch := decide) only [group_nesting_symbol, Expr.height] at room
      exact yields_map (projection_tail_yields answers tail small (by omega) takes)
    | filter predicate tail =>
      simp (disch := decide) only [group_nesting_symbol, Expr.height] at room
      exact filter_yields answers predicate tail small (by omega) takes
    | index => exact following_bracket_yields answers .index small room takes
    | slice nonzero tail =>
      exact following_bracket_yields answers (.slice nonzero tail) small room takes
    | each tail => exact following_bracket_yields answers (.each tail) small room takes
  | dotValues tail =>
    obtain ⟨next, more, rfl, takesTail⟩ := takes_cons.mp takes
    simp (disch := decide) only [group_nesting_symbol, Expr.height] at room
    unfold Yields
    rw [following_dot_values]
    exact yields_map (projection_tail_yields answers tail (Nat.le_of_succ_le small) (by omega)
      takesTail)
  | dot member noWildcard =>
    have noStar : before.tokens.head? ≠ some (.symbol .star) := by
      obtain ⟨u, others, rfl⟩ := member_cons member
      simpa [takes_tokens takes] using noWildcard
    simp (disch := decide) only [group_nesting_symbol, Expr.height] at room
    unfold Yields
    rw [following_dot_member noStar]
    exact yields_map (member_yields answers member small (by omega) takes)
  | @connective build _ right _ _ _ joins operand =>
    have higher : right.height < (build left right).height := by
      rcases connective_cases joins with ⟨-, rfl⟩ | ⟨-, rfl⟩ | ⟨-, rfl⟩ | ⟨op, -, rfl⟩ <;>
        simp only [Expr.height] <;> omega
    rw [group_nesting_plain (connective_plain joins)] at room
    rw [following_connective joins]
    exact yields_map (answers _ _ _ _ _ operand small (by omega) takes)

end JsonQuery

namespace JsonQuery.Expr
open Parse Rules

private theorem guard_nesting_yields (limit : Option Nat) (room : nesting < need)
    (s : TokenStream) :
    Yields limit need (guardNesting limit nesting) s () s := by
  cases limit with
  | none => exact yields_of_ran rfl
  | some n =>
    by_cases deep : n ≤ nesting
    · exact .inr ⟨n, s.position, s, rfl, by omega, by simp [guardNesting, deep, fail]⟩
    · exact yields_of_ran (by simp [guardNesting, deep])

private theorem bounded_yields (limit : Option Nat) (offset : Nat) (room : e.height ≤ need)
    (s : TokenStream) : Yields limit need (bounded limit offset e) s e s := by
  cases limit with
  | none => exact yields_of_ran rfl
  | some n =>
    by_cases deep : e.deeperThan n
    · have taller := (deeper_than_iff e n).mp deep
      exact .inr ⟨n, offset, s, rfl, by omega, by simp [bounded, deep, fail]⟩
    · exact yields_of_ran (by simp [bounded, deep])

theorem continued_stops (below : Below (binding + 1) s.tokens) :
    continued limit sub binding (budget + 1) left s = (.ok left, s) := by
  obtain ⟨_ | ⟨⟨t, offset⟩, more⟩, finish⟩ := s
  · rfl
  · have loose : ¬binding < t.bindingPower := Nat.not_lt.mpr (Nat.le_of_lt_succ (below t rfl))
    simp [continued, loose]

private theorem continued_yields (answers : Answers limit size (depth + 1) sub) (budget : Nat) :
    ∀ left before taken e, Reads (.continuing binding left) taken e after.tokens →
      taken.length ≤ size → depth + e.height + groupNesting taken ≤ need →
        taken.length ≤ budget → Takes before taken after →
          Yields limit need (continued limit sub binding budget left) before e after := by
  induction budget with
  | zero =>
    intro left before taken e reads _ _ short takes
    cases reads with
    | stop below =>
      obtain rfl := takes_nil.mp takes
      exact yields_of_ran rfl
    | step => simp at short
  | succ budget ih =>
    intro left before taken e reads small room short takes
    cases reads with
    | stop below =>
      obtain rfl := takes_nil.mp takes
      exact yields_of_ran (continued_stops below)
    | @step _ _ t link next more _ _ holds linked tail =>
      obtain ⟨middle, takesLink, takesMore⟩ := takes_append.mp
        (show Takes before ((t :: link) ++ more) after from takes)
      obtain ⟨offset, upcoming, rfl, takesRest⟩ := takes_cons.mp takesLink
      have lower : next.height ≤ e.height := base_height tail
      rw [← List.cons_append, group_nesting_append (reads_closes linked)] at room
      rw [← takes_tokens takesMore] at linked
      simp only [List.length_cons, List.length_append] at small short
      have found : Yields limit need (following sub ⟨t, offset⟩ left) _ next middle :=
        following_yields answers linked (by omega) (by omega) takesRest offset
      have measured : Yields limit need (bounded limit offset next) middle next middle :=
        bounded_yields limit offset (by omega) middle
      have rest := yields_bind measured
        (ih _ _ _ _ tail (by omega) (by omega) (by omega) takesMore)
      have result := yields_bind (f := fun next => do
        continued limit sub binding budget (← bounded limit offset next)) found rest
      simp only [Yields, continued, peek_bind, List.head?_cons, Option.map_some, if_pos holds]
      exact result

/-- A reader with a budget of so many tokens finds every reading of them. -/
theorem reader_answers (limit : Option Nat) (budget : Nat) :
    ∀ nesting, Answers limit budget nesting (reader limit budget nesting) := by
  induction budget with
  | zero =>
    intro nesting need binding before taken e after reads small
    obtain ⟨t, others, rfl⟩ := reads_cons reads
    simp at small
  | succ budget ih =>
    intro nesting need binding before taken e after reads small room takes
    cases reads with
    | @operand first left more _ _ _ head tail =>
      obtain ⟨t, others, rfl⟩ := leading_cons head
      obtain ⟨middle, takesHead, takesTail⟩ := takes_append.mp takes
      obtain ⟨offset, upcoming, rfl, takesRest⟩ := takes_cons.mp takesHead
      have lower : left.height ≤ e.height := base_height tail
      have positive := e.height_pos
      rw [group_nesting_append (reads_closes head)] at room
      rw [← takes_tokens takesTail] at head
      simp only [List.length_append, List.length_cons] at small
      have begun : Yields limit need (leading _ ⟨t, offset⟩) _ left middle :=
        leading_yields (ih (nesting + 1)) head (by omega) (by omega) takesRest offset
      have measured : Yields limit need (bounded limit offset left) middle left middle :=
        bounded_yields limit offset (by omega) middle
      have loop : Yields limit need
          (fun s => continued limit _ binding s.upcoming.length left s) middle e after :=
        continued_yields (ih (nesting + 1)) _ _ _ _ _ tail (by omega) (by omega)
          (taken_short takesTail) takesTail
      have rest := yields_bind
        (f := fun left s => continued limit _ binding s.upcoming.length left s)
        measured loop
      have result := yields_bind (f := fun left => bounded limit offset left >>= fun left s =>
        continued limit _ binding s.upcoming.length left s) begun rest
      exact yields_bind (guard_nesting_yields limit (by omega) _) result

/-- A text whose tokens denote an expression parses to it, unless the limit is less than the height
of the expression and the groups around its parts. -/
theorem reads_parse_within (limit : Option Nat) (lexed : TokenStream.ofText text = .ok s)
    (reads : Reads (.operand 0) s.tokens e []) :
    parseWithin limit text = .ok e ∨
      ∃ n position, limit = some n ∧ n < e.height + groupNesting s.tokens ∧
        parseWithin limit text = .error (.tooDeep n position) := by
  have all : Yields limit (e.height + groupNesting s.tokens) (readAll limit) s e
      ⟨[], s.finish⟩ := by
    have takes : Takes s s.tokens ⟨[], s.finish⟩ := ⟨s.upcoming, rfl, by simp⟩
    have ended : Yields limit (e.height + groupNesting s.tokens)
        (do expectEnd "end of expression"; return e) ⟨[], s.finish⟩ e ⟨[], s.finish⟩ :=
      yields_of_ran rfl
    have short : s.tokens.length ≤ s.upcoming.length := by
      simp [TokenStream.tokens]
    have result := yields_bind (f := fun e => do expectEnd "end of expression"; return e)
      (reader_answers limit s.upcoming.length 0 0 s _ _ ⟨[], s.finish⟩ reads short (by omega)
        takes) ended
    obtain ⟨t, others, tokens⟩ := reads_cons reads
    obtain ⟨_ | ⟨placed, more⟩, finish⟩ := s
    · cases tokens
    · exact result
  unfold parseWithin
  rw [lexed]
  rcases all with ran | ⟨n, position, left, bound, less, stopped⟩
  · exact .inl (congrArg Prod.fst ran)
  · exact .inr ⟨n, position, bound, less, congrArg Prod.fst stopped⟩

theorem reads_parse (lexed : TokenStream.ofText text = .ok s)
    (reads : Reads (.operand 0) s.tokens e []) :
    Expr.parse text = .ok e ∨
      ∃ position, Expr.parse text = .error (.tooDeep maxExprDepth position) := by
  unfold Expr.parse
  rcases reads_parse_within _ lexed reads with parsed | ⟨n, position, limited, -, failed⟩
  · exact .inl parsed
  · cases limited
    exact .inr ⟨position, failed⟩

end JsonQuery.Expr
