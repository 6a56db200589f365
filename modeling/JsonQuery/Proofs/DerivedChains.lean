import JsonQuery.Proofs.ChainGrammar
import JsonQuery.Proofs.ExpressionGrammar

/-! The documented grammar derives the same tokens as its reading from left to right. What the parser
takes beyond it are lists directly behind a projection, and they show in the tokens. -/
namespace JsonQuery

/-- What a derivation of the phrase gives when it is read from left to right. An expression may be
followed by any chain. -/
def Phrase.Read : Phrase → List Token → Prop
  | .expression, w => ∀ more, Sentence .documented (.chain .plain) more →
      Sentence .documented .operand (w ++ more)
  | .name, w => Sentence .documented .name w
  | .member, w => ∃ link, link ≠ .list ∧ Sentence .documented (.link link) (.symbol .dot :: w)
  | .suffix, w => ∃ link, link.Leads ∧ Sentence .documented (.link link) w
  | .list, w => ∃ v, w = .symbol .leftBracket :: v ∧
      Sentence .documented (.items .rightBracket) v
  | .hash, w => ∃ v, w = .symbol .leftBrace :: v ∧ Sentence .documented .entries v
  | .elements, w => ∀ close, Sentence .documented (.items close) (w ++ [.symbol close])
  | .entries, w => Sentence .documented .entries (w ++ [.symbol .rightBrace])

private theorem Link.Leads.not_list {link : Link} (leads : link.Leads) : link ≠ .list := by
  rintro rfl
  exact leads

private theorem documented_allows (chain : Chain) (noList : link ≠ .list) :
    Manner.documented.Allows chain link := by
  refine ⟨fun list => absurd list noList, fun strict => ?_⟩
  cases strict

/-- In the documented manner, a chain may stand behind anything. -/
theorem documented_chain (chained : Sentence .documented (.chain before) w) (chain : Chain) :
    Sentence .documented (.chain chain) w := by
  apply chain_relaxed rfl chained before chain rfl
  intro lists
  cases lists

private theorem read_whole (read : Phrase.Read .expression w) :
    Sentence .documented .operand w := by
  simpa using read [] .done

/-- A list begins an operand. If all it holds is a wildcard, it reads as `[*]`. -/
theorem list_operand (items : Sentence .documented (.items .rightBracket) w)
    (chained : Sentence .documented (.chain .plain) more) :
    Sentence .documented .operand (.symbol .leftBracket :: (w ++ more)) := by
  obtain ⟨t, u, others, rfl, -, -, wildcard⟩ := items_begins items
  by_cases each : t = .symbol .star ∧ u = .symbol .rightBracket
  · obtain ⟨rfl, rfl⟩ := each
    rw [wildcard rfl rfl]
    exact .led (by exact trivial) .linkEach (documented_chain chained _)
  · refine .begun (.list items fun star closes => each ⟨?_, ?_⟩) chained
    · simpa using star
    · simpa using closes

private theorem derives_reads (derives : Derives phrase w) : phrase.Read w := by
  induction derives with
  | literal => exact fun more chained => .begun .literal chained
  | rawString => exact fun more chained => .begun .rawString chained
  | current => exact fun more chained => .begun .current chained
  | values => exact fun more chained => .spread (documented_chain chained _)
  | named _ name => exact fun more chained => .begun (.named name) chained
  | leading _ suffix =>
    obtain ⟨link, leads, suffix⟩ := suffix
    exact fun more chained => .led leads suffix (documented_chain chained _)
  | listed _ list =>
    obtain ⟨v, rfl, items⟩ := list
    exact fun more chained => list_operand items chained
  | hashed _ hash =>
    obtain ⟨v, rfl, entries⟩ := hash
    exact fun more chained => .begun (.hash entries) chained
  | group _ inner => exact fun more chained => .begun (.group rfl (read_whole inner)) chained
  | not _ operand => exact fun more chained => .negated (operand more chained)
  | reference _ operand => exact fun more chained => .referred (operand more chained)
  | dot _ _ left member =>
    obtain ⟨link, noList, member⟩ := member
    intro more chained
    have linked := Sentence.linked (documented_allows .plain noList) member
      (documented_chain chained _)
    simpa using left _ linked
  | operator _ joins _ left right =>
    intro more chained
    simpa using left _ (.joined joins (right more chained))
  | applied _ _ left suffix =>
    obtain ⟨link, leads, suffix⟩ := suffix
    intro more chained
    have linked := Sentence.linked (documented_allows .plain leads.not_list) suffix
      (documented_chain chained _)
    simpa using left _ linked
  | identifier => exact .identifier
  | quotedIdentifier => exact .quotedIdentifier
  | emptyCall => exact .emptyCall
  | call _ args => exact .call (args .rightParen)
  | memberName _ name => exact ⟨.name, by simp, .linkName name⟩
  | memberValues => exact ⟨.values, by simp, .linkValues⟩
  | memberList _ list =>
    obtain ⟨v, rfl, items⟩ := list
    exact ⟨.select, by simp, .linkSelect items⟩
  | memberHash _ hash =>
    obtain ⟨v, rfl, entries⟩ := hash
    exact ⟨.select, by simp, .linkHash entries⟩
  | flatten => exact ⟨.flatten, trivial, .linkFlatten⟩
  | filter _ test => exact ⟨.filter, trivial, .linkFilter (read_whole test)⟩
  | index => exact ⟨.index, trivial, .linkIndex⟩
  | slice nonzero => exact ⟨.items, trivial, .linkSlice nonzero⟩
  | each => exact ⟨.items, trivial, .linkEach⟩
  | list _ elements => exact ⟨_, rfl, elements .rightBracket⟩
  | hash _ entries => exact ⟨_, rfl, entries⟩
  | lastElement _ element => exact fun close => .lastItem (read_whole element)
  | nextElement _ _ element others =>
    intro close
    simpa using Sentence.nextItem (read_whole element) (others close)
  | lastEntry key _ value => exact .lastEntry key (read_whole value)
  | nextEntry key _ _ value others =>
    simpa [Phrase.Read] using Sentence.nextEntry key (read_whole value) others

/-- What a part that is read from left to right derives. A chain extends the expression before it. -/
def Place.Derived : Place → List Token → Prop
  | .operand, w => Derives .expression w
  | .chain _, w => ∀ before, Derives .expression before → Derives .expression (before ++ w)
  | .atom, w => Derives .expression w
  | .name, w => Derives .name w
  | .link .name, w | .link .select, w | .link .values, w =>
    ∃ v, w = .symbol .dot :: v ∧ Derives .member v
  | .link .list, _ => True
  | .link _, w => Derives .suffix w
  | .items close, w => ∃ v, w = v ++ [.symbol close] ∧ Derives .elements v
  | .entries, w => ∃ v, w = v ++ [.symbol .rightBrace] ∧ Derives .entries v

/-- A link extends the expression before it, unless it is a list without a dot. -/
theorem derives_linked (noList : link ≠ .list) (left : Derives .expression before)
    (derived : (Place.link link).Derived w) : Derives .expression (before ++ w) := by
  cases link with
  | name | select | values =>
    obtain ⟨v, rfl, member⟩ := derived
    exact .dot left member
  | list => exact absurd rfl noList
  | index | items | filter | flatten => exact .applied left derived

private theorem sentence_derives (sentence : Sentence .documented place w) : place.Derived w := by
  induction sentence with
  | negated _ operand => exact .not operand
  | referred _ operand => exact .reference operand
  | begun _ _ atom tail => exact tail _ atom
  | spread _ tail => exact tail _ .values
  | @led link _ _ leads first tail suffix chained =>
    apply chained
    cases link <;> first | exact leads.elim | exact .leading suffix
  | done =>
    intro before left
    simpa using left
  | joined joins _ right => exact fun before left => .operator left joins right
  | linked allowed _ _ link chained =>
    intro before left
    have extended := derives_linked (fun list => by cases (allowed.1 list).1) left link
    simpa using chained _ extended
  | literal => exact .literal
  | rawString => exact .rawString
  | current => exact .current
  | named _ name => exact .named name
  | list _ _ items =>
    obtain ⟨v, rfl, elements⟩ := items
    exact .listed (.list elements)
  | hash _ entries =>
    obtain ⟨v, rfl, entries⟩ := entries
    exact .hashed (.hash entries)
  | group _ _ inner => exact .group inner
  | identifier => exact .identifier
  | quotedIdentifier => exact .quotedIdentifier
  | emptyCall => exact .emptyCall
  | call _ args =>
    obtain ⟨v, rfl, elements⟩ := args
    exact .call elements
  | linkName _ name => exact ⟨_, rfl, .memberName name⟩
  | linkSelect _ items =>
    obtain ⟨v, rfl, elements⟩ := items
    exact ⟨_, rfl, .memberList (.list elements)⟩
  | linkHash _ entries =>
    obtain ⟨v, rfl, entries⟩ := entries
    exact ⟨_, rfl, .memberHash (.hash entries)⟩
  | linkValues => exact ⟨_, rfl, .memberValues⟩
  | linkIndex => exact .index
  | linkSlice nonzero => exact .slice nonzero
  | linkEach => exact .each
  | linkFilter _ test => exact .filter test
  | linkFlatten => exact .flatten
  | linkList => trivial
  | lastItem _ item => exact ⟨_, rfl, .lastElement item⟩
  | nextItem _ _ item others =>
    obtain ⟨v, rfl, elements⟩ := others
    exact ⟨_, by simp, .nextElement item elements⟩
  | lastEntry key _ value => exact ⟨_, by simp, .lastEntry key value⟩
  | nextEntry key _ _ value others =>
    obtain ⟨v, rfl, entries⟩ := others
    exact ⟨_, by simp, .nextEntry key value entries⟩

theorem derives_iff_documented :
    Derives .expression w ↔ Sentence .documented .operand w :=
  ⟨fun derives => read_whole (derives_reads derives), sentence_derives⟩

/-- The last of these tokens may end an operand. -/
def Ends (w : List Token) : Prop :=
  ∃ first t, w = first ++ [t] ∧ t.EndsOperand

private theorem ends_cons (ends : Ends w) (t : Token) : Ends (t :: w) := by
  obtain ⟨first, u, rfl, endsOperand⟩ := ends
  exact ⟨t :: first, u, rfl, endsOperand⟩

private theorem ends_append (ends : Ends w) (before : List Token) : Ends (before ++ w) := by
  obtain ⟨first, u, rfl, endsOperand⟩ := ends
  exact ⟨before ++ first, u, by simp, endsOperand⟩

/-- How the tokens of a part end. Operands and chains end with parts of their own. -/
def Place.Closed : Place → List Token → Prop
  | .operand, _ | .chain _, _ => True
  | .items close, w => (Token.symbol close).EndsOperand → Ends w
  | _, w => Ends w

private theorem sentence_closed (sentence : Sentence m place w) : place.Closed w := by
  induction sentence with
  | negated | referred | begun | spread | led | done | joined | linked => trivial
  | literal | rawString | current | identifier | quotedIdentifier => exact ⟨[], _, rfl, trivial⟩
  | named _ name => exact name
  | list _ _ items => exact ends_cons (items trivial) _
  | hash _ entries => exact ends_cons entries _
  | group => exact ⟨_ :: _, _, rfl, trivial⟩
  | emptyCall => exact ⟨[_, _], _, rfl, trivial⟩
  | call _ args => exact ends_cons (ends_cons (args trivial) _) _
  | linkName _ name => exact ends_cons name _
  | linkSelect _ items => exact ends_cons (ends_cons (items trivial) _) _
  | linkHash _ entries => exact ends_cons (ends_cons entries _) _
  | linkValues => exact ⟨[_], _, rfl, trivial⟩
  | linkIndex => exact ⟨[_, _], _, rfl, trivial⟩
  | linkSlice => exact ⟨_ :: _, _, rfl, trivial⟩
  | linkEach => exact ⟨[_, _], _, rfl, trivial⟩
  | linkFilter => exact ⟨_ :: _, _, rfl, trivial⟩
  | linkFlatten => exact ⟨[], _, rfl, trivial⟩
  | linkList _ _ items => exact ends_cons (items trivial) _
  | lastItem => exact fun closes => ⟨_, _, rfl, closes⟩
  | nextItem _ _ _ others => exact fun closes => ends_append (ends_cons (others closes) _) _
  | lastEntry => exact ⟨_ :: _ :: _, _, rfl, trivial⟩
  | nextEntry _ _ _ _ others => exact ends_append (ends_cons others _) (_ :: _ :: _)

/-- A list without a dot does not apply its bracket to the operand before it. -/
theorem list_not_applied (list : Sentence m (.link .list) w) (ends : Ends before)
    (applies : BracketsApply (before ++ w ++ after)) : False := by
  cases list with
  | linkList items noWildcard =>
    obtain ⟨first, last, rfl, endsOperand⟩ := ends
    obtain ⟨t, u, more, rfl, noNumber, noColon, -⟩ := items_begins items
    have behind := applies_of_append first (by simpa using applies)
    have subscripts := behind.1 endsOperand
    cases t with
    | number n => exact noNumber n rfl
    | symbol symbol =>
      cases symbol with
      | colon => exact noColon rfl
      | star =>
        have wildcard : u ≠ .symbol .rightBracket := by simpa using noWildcard
        cases u with
        | symbol symbol =>
          cases symbol <;> first | exact subscripts | exact wildcard rfl
        | _ => exact subscripts
      | _ => exact subscripts
    | _ => exact subscripts

/-- Among what the parser takes, the documented sentences are those that apply their brackets. A
chain is judged together with the operand that it extends. -/
theorem accepted_documented (sentence : Sentence .accepted place w) :
    ∀ before after, (∀ chain, place = .chain chain → Ends before) →
      BracketsApply (before ++ (w ++ after)) → Sentence .documented place w := by
  induction sentence with
  | negated _ operand =>
    intro before after _ applies
    exact .negated (operand (before ++ [_]) after nofun (by simpa using applies))
  | referred _ operand =>
    intro before after _ applies
    exact .referred (operand (before ++ [_]) after nofun (by simpa using applies))
  | begun atom _ first chained =>
    intro before after _ applies
    refine .begun (first before _ nofun (by simpa using applies)) ?_
    apply chained (before ++ _) after (fun _ _ => ends_append (sentence_closed atom) _)
    simpa using applies
  | spread _ chained =>
    intro before after _ applies
    have ends : Ends (before ++ [.symbol .star]) := ⟨before, _, rfl, trivial⟩
    exact .spread (chained _ after (fun _ _ => ends) (by simpa using applies))
  | led leads first _ suffix chained =>
    intro before after _ applies
    refine .led leads (suffix before _ nofun (by simpa using applies)) ?_
    apply chained (before ++ _) after (fun _ _ => ends_append (sentence_closed first) _)
    simpa using applies
  | done => exact fun _ _ _ _ => .done
  | joined joins _ operand =>
    intro before after _ applies
    exact .joined joins (operand (before ++ [_]) after nofun (by simpa using applies))
  | @linked chain link _ _ allowed first _ reads chained =>
    intro before after ends applies
    by_cases list : link = .list
    · subst list
      exact (list_not_applied first (ends _ rfl) (by simpa using applies)).elim
    · refine .linked (documented_allows _ list) (reads before _ nofun (by simpa using applies)) ?_
      apply chained (before ++ _) after (fun _ _ => ends_append (sentence_closed first) _)
      simpa using applies
  | literal => exact fun _ _ _ _ => .literal
  | rawString => exact fun _ _ _ _ => .rawString
  | current => exact fun _ _ _ _ => .current
  | named _ name => exact fun before after _ applies => .named (name before after nofun applies)
  | list _ noWildcard items =>
    intro before after _ applies
    exact .list (items (before ++ [_]) after nofun (by simpa using applies)) noWildcard
  | hash _ entries =>
    intro before after _ applies
    exact .hash (entries (before ++ [_]) after nofun (by simpa using applies))
  | group _ _ inner =>
    intro before after _ applies
    exact .group rfl (inner (before ++ [_]) (_ :: after) nofun (by simpa using applies))
  | identifier => exact fun _ _ _ _ => .identifier
  | quotedIdentifier => exact fun _ _ _ _ => .quotedIdentifier
  | emptyCall => exact fun _ _ _ _ => .emptyCall
  | call _ args =>
    intro before after _ applies
    exact .call (args (before ++ [_, _]) after nofun (by simpa using applies))
  | linkName _ name =>
    intro before after _ applies
    exact .linkName (name (before ++ [_]) after nofun (by simpa using applies))
  | linkSelect _ items =>
    intro before after _ applies
    exact .linkSelect (items (before ++ [_, _]) after nofun (by simpa using applies))
  | linkHash _ entries =>
    intro before after _ applies
    exact .linkHash (entries (before ++ [_, _]) after nofun (by simpa using applies))
  | linkValues => exact fun _ _ _ _ => .linkValues
  | linkIndex => exact fun _ _ _ _ => .linkIndex
  | linkSlice nonzero => exact fun _ _ _ _ => .linkSlice nonzero
  | linkEach => exact fun _ _ _ _ => .linkEach
  | linkFilter _ test =>
    intro before after _ applies
    exact .linkFilter (test (before ++ [_]) (_ :: after) nofun (by simpa using applies))
  | linkFlatten => exact fun _ _ _ _ => .linkFlatten
  | linkList _ noWildcard items =>
    intro before after _ applies
    exact .linkList (items (before ++ [_]) after nofun (by simpa using applies)) noWildcard
  | lastItem _ item =>
    intro before after _ applies
    exact .lastItem (item before (_ :: after) nofun (by simpa using applies))
  | nextItem _ _ item others =>
    intro before after _ applies
    refine .nextItem (item before (_ :: (_ ++ after)) nofun (by simpa using applies)) ?_
    exact others (before ++ (_ ++ [_])) after nofun (by simpa using applies)
  | lastEntry key _ value =>
    intro before after _ applies
    exact .lastEntry key (value (before ++ [_, _]) (_ :: after) nofun (by simpa using applies))
  | nextEntry key _ _ value others =>
    intro before after _ applies
    refine .nextEntry key
      (value (before ++ [_, _]) (_ :: (_ ++ after)) nofun (by simpa using applies)) ?_
    exact others (before ++ (_ :: _ :: (_ ++ [_]))) after nofun (by simpa using applies)

end JsonQuery
