import JsonQuery.Proofs.ChainCompleteness
import JsonQuery.Proofs.ReadingCompleteness
import JsonQuery.Proofs.ReadingSoundness

/-! When all that continues a projection is applied to its elements. The parser reads the elements of
a projection with a binding power of its own, and links that hold no tighter are applied to the list
of results instead. The tokens alone tell whether that happens. -/
namespace JsonQuery

open JsonQuery.Expr

/-- No parenthesis stands anywhere but behind the name of a function. -/
def Ungrouped : List Token → Prop
  | [] => True
  | .functionName _ :: .symbol .leftParen :: more => Ungrouped more
  | .symbol .leftParen :: _ => False
  | _ :: more => Ungrouped more

/-- What a token adds to the number of groups. The name of a function has its parenthesis for
itself. -/
def Token.groups : Token → Int
  | .symbol .leftParen => 1
  | .functionName _ => -1
  | _ => 0

@[simp] def groupsIn : List Token → Int
  | [] => 0
  | t :: more => t.groups + groupsIn more

@[simp] theorem groupsIn_append (first more : List Token) :
    groupsIn (first ++ more) = groupsIn first + groupsIn more := by
  induction first with
  | nil => simp
  | cons t others rest =>
    simp only [List.cons_append, groupsIn, rest]
    omega

private theorem groupsIn_slice (start stop : Option Int64) (step : Option (Option Int64)) :
    groupsIn (sliceTokens start stop step) = 0 := by
  obtain _ | start := start <;> obtain _ | stop := stop <;> obtain _ | _ | step := step <;> rfl

private theorem connective_groups {t : Token} (joins : t.connective?.isSome) : t.groups = 0 := by
  obtain ⟨build, joins⟩ := Option.isSome_iff_exists.mp joins
  rcases connective_cases joins with ⟨rfl, rfl⟩ | ⟨rfl, rfl⟩ | ⟨rfl, rfl⟩ | ⟨op, rfl, rfl⟩ <;>
    rfl

private theorem key_groups {t : Token} (key : t.key?.isSome) : t.groups = 0 := by
  obtain ⟨name, key⟩ := Option.isSome_iff_exists.mp key
  rcases key_cases key with rfl | rfl <;> rfl

private theorem symbol_groups (symbol : Symbol) : 0 ≤ (Token.symbol symbol).groups := by
  cases symbol <;> simp [Token.groups]

private theorem ungrouped_groups (tokens : List Token) (ungrouped : Ungrouped tokens) :
    groupsIn tokens ≤ 0 := by
  fun_induction Ungrouped tokens with
  | case1 => simp
  | case2 name more none =>
    have others := none ungrouped
    simp only [groupsIn, Token.groups]
    omega
  | case3 => exact ungrouped.elim
  | case4 t more noCall noGroup none =>
    have others := none ungrouped
    have nothing : t.groups ≤ 0 := by
      unfold Token.groups
      split <;> simp_all
    simp only [groupsIn]
    omega

def Manner.ungrouped (m : Manner) : Manner :=
  { m with groups := false }

/-- Sentences have no fewer parentheses than names of functions, and groups are what makes them have
more. -/
theorem sentence_ungrouped (sentence : Sentence m place w) :
    0 ≤ groupsIn w ∧ (groupsIn w ≤ 0 → Sentence m.ungrouped place w) := by
  induction sentence with
  | negated _ operand =>
    simp only [groupsIn, Token.groups]
    exact ⟨by omega, fun none => .negated (operand.2 (by omega))⟩
  | referred _ operand =>
    simp only [groupsIn, Token.groups]
    exact ⟨by omega, fun none => .referred (operand.2 (by omega))⟩
  | begun _ _ atom tail =>
    simp only [groupsIn_append]
    exact ⟨by omega, fun none => .begun (atom.2 (by omega)) (tail.2 (by omega))⟩
  | spread _ tail =>
    simp only [groupsIn, Token.groups]
    exact ⟨by omega, fun none => .spread (tail.2 (by omega))⟩
  | led leads _ _ first tail =>
    simp only [groupsIn_append]
    exact ⟨by omega, fun none => .led leads (first.2 (by omega)) (tail.2 (by omega))⟩
  | done => exact ⟨Int.le_refl 0, fun _ => .done⟩
  | joined joins _ operand =>
    simp only [groupsIn, connective_groups joins]
    exact ⟨by omega, fun none => .joined joins (operand.2 (by omega))⟩
  | linked allowed _ _ first tail =>
    simp only [groupsIn_append]
    exact ⟨by omega, fun none => .linked allowed (first.2 (by omega)) (tail.2 (by omega))⟩
  | literal => exact ⟨Int.le_refl 0, fun _ => .literal⟩
  | rawString => exact ⟨Int.le_refl 0, fun _ => .rawString⟩
  | current => exact ⟨Int.le_refl 0, fun _ => .current⟩
  | named _ name => exact ⟨name.1, fun none => .named (name.2 none)⟩
  | list _ noWildcard items =>
    simp only [groupsIn, Token.groups]
    exact ⟨by omega, fun none => .list (items.2 (by omega)) noWildcard⟩
  | hash _ entries =>
    simp only [groupsIn, Token.groups]
    exact ⟨by omega, fun none => .hash (entries.2 (by omega))⟩
  | group _ _ inner =>
    simp only [groupsIn, groupsIn_append, Token.groups]
    exact ⟨by omega, fun none => by omega⟩
  | identifier => exact ⟨Int.le_refl 0, fun _ => .identifier⟩
  | quotedIdentifier => exact ⟨Int.le_refl 0, fun _ => .quotedIdentifier⟩
  | emptyCall => exact ⟨Int.le_refl 0, fun _ => .emptyCall⟩
  | call _ args =>
    simp only [groupsIn, Token.groups]
    exact ⟨by omega, fun none => .call (args.2 (by omega))⟩
  | linkName _ name =>
    simp only [groupsIn, Token.groups]
    exact ⟨by omega, fun none => .linkName (name.2 (by omega))⟩
  | linkSelect _ items =>
    simp only [groupsIn, Token.groups]
    exact ⟨by omega, fun none => .linkSelect (items.2 (by omega))⟩
  | linkHash _ entries =>
    simp only [groupsIn, Token.groups]
    exact ⟨by omega, fun none => .linkHash (entries.2 (by omega))⟩
  | linkValues => exact ⟨Int.le_refl 0, fun _ => .linkValues⟩
  | linkIndex => exact ⟨Int.le_refl 0, fun _ => .linkIndex⟩
  | linkSlice nonzero =>
    simp only [groupsIn, groupsIn_append, groupsIn_slice, Token.groups]
    exact ⟨by omega, fun _ => .linkSlice nonzero⟩
  | linkEach => exact ⟨Int.le_refl 0, fun _ => .linkEach⟩
  | linkFilter _ test =>
    simp only [groupsIn, groupsIn_append, Token.groups]
    exact ⟨by omega, fun none => .linkFilter (test.2 (by omega))⟩
  | linkFlatten => exact ⟨Int.le_refl 0, fun _ => .linkFlatten⟩
  | linkList _ noWildcard items =>
    simp only [groupsIn, Token.groups]
    exact ⟨by omega, fun none => .linkList (items.2 (by omega)) noWildcard⟩
  | @lastItem w close _ item =>
    have closes := symbol_groups close
    simp only [groupsIn, groupsIn_append]
    exact ⟨by omega, fun none => .lastItem (item.2 (by omega))⟩
  | nextItem _ _ item others =>
    simp only [groupsIn, groupsIn_append, Token.groups]
    exact ⟨by omega, fun none => .nextItem (item.2 (by omega)) (others.2 (by omega))⟩
  | lastEntry key _ value =>
    rw [groupsIn, key_groups key]
    simp only [groupsIn, groupsIn_append, Token.groups]
    exact ⟨by omega, fun none => .lastEntry key (value.2 (by omega))⟩
  | nextEntry key _ _ value others =>
    rw [groupsIn, key_groups key]
    simp only [groupsIn, groupsIn_append, Token.groups]
    exact ⟨by omega, fun none => .nextEntry key (value.2 (by omega)) (others.2 (by omega))⟩

/-- The manner in which no link escapes a projection, with groups wherever the parser takes them. -/
def Manner.absorbedGrouped : Manner :=
  { Manner.absorbed with groups := true }

/-- Without groups, the chains of an expression stay inside its projections exactly if each link is
absorbed where it stands. No link is then applied to a projection. -/
theorem Expr.chains_inside_iff (parsed : Expr.parse text = .ok e)
    (lexed : TokenStream.ofText text = .ok s) (ungrouped : Ungrouped s.tokens) :
    (e.ChainsInside ↔ s.tokens = [] ∨ Sentence .absorbed .operand s.tokens) ∧
      (e.ChainsInside → ∀ node ∈ e.nodes, ∀ target, node.target? = some target →
        target.isProjection = false) := by
  refine ⟨?_, ChainsInside.unprojected⟩
  obtain ⟨same, relexed, ⟨none, rfl⟩ | reads⟩ := parse_within_reads parsed
  all_goals
    rw [lexed] at relexed
    cases relexed
  · exact ⟨fun _ => .inl none, fun _ => inside_identity⟩
  · constructor
    · intro inside
      have chained := reads_chained (m := .absorbedGrouped) rfl rfl reads fun _ => inside
      have sentence := sentence_ungrouped (operand_sentence chained)
      exact .inr (sentence.2 (ungrouped_groups _ ungrouped))
    · rintro (none | sentence)
      · obtain ⟨t, others, shape⟩ := reads_cons reads
        rw [none] at shape
        cases shape
      · obtain ⟨inner, again, inside⟩ := sentence_reads (m := .absorbed) (fun _ => rfl) sentence
        -- The text has one expression only, so this is the one that was parsed.
        obtain reparsed | ⟨position, failed⟩ := reads_parse lexed again
        · cases parsed.symm.trans reparsed
          exact inside rfl
        · cases parsed.symm.trans failed

theorem Expr.chains_inside_items :
    Expr.parse "a[*].b[0]" = .ok (.eachItem (.field "a") (.bracket (.field "b") (.index 0))) ∧
      ∃ s, TokenStream.ofText "a[*].b[0]" = .ok s ∧ Ungrouped s.tokens ∧
        Sentence .absorbed .operand s.tokens := by
  have parsed : Expr.parse "a[*].b[0]" =
      .ok (.eachItem (.field "a") (.bracket (.field "b") (.index 0))) := by cbv
  have lexed : TokenStream.ofText "a[*].b[0]" =
      .ok ⟨[⟨.identifier "a", 0⟩, ⟨.symbol .leftBracket, 1⟩, ⟨.symbol .star, 2⟩,
        ⟨.symbol .rightBracket, 3⟩, ⟨.symbol .dot, 4⟩, ⟨.identifier "b", 5⟩,
        ⟨.symbol .leftBracket, 6⟩, ⟨.number 0, 7⟩, ⟨.symbol .rightBracket, 8⟩], 9⟩ := by rfl
  have inside : ChainsInside (.eachItem (.field "a") (.bracket (.field "b") (.index 0))) := by
    simp [ChainsInside, nodes, target?, endsInProjection, isProjection]
  obtain none | sentence :=
    (chains_inside_iff parsed lexed (by simp [TokenStream.tokens, Ungrouped])).1.mp inside
  · cases none
  · exact ⟨parsed, _, lexed, by simp [TokenStream.tokens, Ungrouped], sentence⟩

/-- A field behind the values of a field is looked up in their list. -/
theorem Expr.chain_escapes_values :
    ∃ e s, Expr.parse "a.*.b.c" = .ok e ∧ TokenStream.ofText "a.*.b.c" = .ok s ∧
      Ungrouped s.tokens ∧ ∃ node ∈ e.nodes, ∃ target, node.target? = some target ∧
        target.isProjection = true := by
  have parsed : Expr.parse "a.*.b.c" =
      .ok (.dot (.eachValue (.field "a") (.field "b")) (.field "c")) := by cbv
  have lexed : TokenStream.ofText "a.*.b.c" =
      .ok ⟨[⟨.identifier "a", 0⟩, ⟨.symbol .dot, 1⟩, ⟨.symbol .star, 2⟩, ⟨.symbol .dot, 3⟩,
        ⟨.identifier "b", 4⟩, ⟨.symbol .dot, 5⟩, ⟨.identifier "c", 6⟩], 7⟩ := by rfl
  refine ⟨_, _, parsed, lexed, by simp [TokenStream.tokens, Ungrouped], ?_⟩
  exact ⟨_, List.mem_cons_self .., _, rfl, rfl⟩

end JsonQuery
