import JsonQuery.Proofs.Reading

/-! The token sequences of expressions, read from left to right. An operand is followed by a chain of
links, and what a chain may go on with depends on the projection that it last went through. Three
switches tell apart what a grammar allows, what the parser takes, and what stays inside. -/
namespace JsonQuery

/-- How far a chain has come since its last projection. -/
inductive Chain where
  /-- No projection came before. -/
  | plain
  /-- A projection came last, and its elements are read with this binding power. -/
  | fresh (binding : Nat)
  /-- Links have been applied to the elements of a projection. -/
  | within (binding : Nat)
  /-- A multi-select has ended what is applied to the elements. -/
  | shut

/-- The kinds of links. Items are `[*]` and slices, and a list stands without a dot. -/
inductive Link where
  | name
  | select
  | values
  | index
  | items
  | filter
  | flatten
  | list

namespace Link

/-- The binding power of the first token of a link. -/
def power : Link → Nat
  | .name => 40
  | .select => 40
  | .values => 40
  | .index => 55
  | .items => 55
  | .filter => 21
  | .flatten => 9
  | .list => 55

/-- Links that may also begin an operand. -/
def Leads : Link → Prop
  | .index => True
  | .items => True
  | .filter => True
  | .flatten => True
  | _ => False

end Link

namespace Chain

def Fresh : Chain → Prop
  | .fresh _ => True
  | _ => False

/-- Behind a link that does not project and is read as an operand of its own. -/
def entered : Chain → Chain
  | .fresh binding => .within binding
  | chain => chain

/-- Behind a multi-select. -/
def selected : Chain → Chain
  | .fresh _ => .shut
  | chain => chain

/-- The power with which the elements of a value projection are read. Directly behind a projection
the star begins an operand and is no longer the link that it looks like. -/
def valuesBinding : Chain → Nat
  | .fresh _ => 20
  | _ => 40

def after (chain : Chain) : Link → Chain
  | .name => chain.entered
  | .select => chain.selected
  | .values => .fresh chain.valuesBinding
  | .index => chain.entered
  | .items => .fresh 20
  | .filter => .fresh 21
  | .flatten => .fresh 9
  | .list => chain.entered

/-- Whether a link here becomes part of what is applied to the elements of the last projection.
Flattening always takes the whole projection. -/
def Absorbs (chain : Chain) (link : Link) : Prop :=
  match link, chain with
  | .flatten, _ => True
  | link, .within binding => binding < link.power
  | _, .shut => False
  | _, _ => True

end Chain

/-- What token sequences have to observe. -/
structure Manner where
  /-- A multi-select list may stand directly behind a projection. -/
  lists : Bool
  /-- Every link becomes part of what is applied to the elements. -/
  absorbs : Bool
  /-- Parentheses may group. -/
  groups : Bool

namespace Manner

/-- The links that may stand here. -/
def Allows (m : Manner) (chain : Chain) (link : Link) : Prop :=
  (link = .list → m.lists ∧ chain.Fresh) ∧ (m.absorbs → chain.Absorbs link)

/-- The manner of the documented grammar. -/
def documented : Manner where
  lists := false
  absorbs := false
  groups := true

/-- The manner that the parser follows. -/
def accepted : Manner where
  lists := true
  absorbs := false
  groups := true

/-- The manner in which no link escapes a projection. -/
def absorbed : Manner where
  lists := true
  absorbs := true
  groups := false

end Manner

/-- The places at which tokens stand. Items and entries include what closes them. -/
inductive Place where
  | operand
  | chain (chain : Chain)
  | atom
  | name
  | link (link : Link)
  | items (close : Symbol)
  | entries

/-- These tokens may stand at the place. -/
inductive Sentence (m : Manner) : Place → List Token → Prop where
  | negated (operand : Sentence m .operand w) : Sentence m .operand (.symbol .not :: w)
  | referred (operand : Sentence m .operand w) : Sentence m .operand (.symbol .reference :: w)
  | begun (atom : Sentence m .atom a) (tail : Sentence m (.chain .plain) w) :
      Sentence m .operand (a ++ w)
  | spread (tail : Sentence m (.chain (.fresh 20)) w) :
      Sentence m .operand (.symbol .star :: w)
  | led (leads : link.Leads) (first : Sentence m (.link link) a)
      (tail : Sentence m (.chain (Chain.plain.after link)) w) : Sentence m .operand (a ++ w)
  | done : Sentence m (.chain chain) []
  | joined (joins : t.connective?.isSome) (operand : Sentence m .operand w) :
      Sentence m (.chain chain) (t :: w)
  | linked (allowed : m.Allows chain link) (first : Sentence m (.link link) a)
      (tail : Sentence m (.chain (chain.after link)) w) : Sentence m (.chain chain) (a ++ w)
  | literal : Sentence m .atom [.literal value]
  | rawString : Sentence m .atom [.rawString text]
  | current : Sentence m .atom [.symbol .current]
  | named (name : Sentence m .name a) : Sentence m .atom a
  | list (items : Sentence m (.items .rightBracket) w)
      (noWildcard : w.head? = some (.symbol .star) →
        w.tail.head? ≠ some (.symbol .rightBracket)) :
      Sentence m .atom (.symbol .leftBracket :: w)
  | hash (entries : Sentence m .entries w) : Sentence m .atom (.symbol .leftBrace :: w)
  | group (grouping : m.groups) (inner : Sentence m .operand w) :
      Sentence m .atom (.symbol .leftParen :: (w ++ [.symbol .rightParen]))
  | identifier : Sentence m .name [.identifier text]
  | quotedIdentifier : Sentence m .name [.quotedIdentifier text]
  | emptyCall :
      Sentence m .name [.functionName text, .symbol .leftParen, .symbol .rightParen]
  | call (args : Sentence m (.items .rightParen) w) :
      Sentence m .name (.functionName text :: .symbol .leftParen :: w)
  | linkName (name : Sentence m .name a) : Sentence m (.link .name) (.symbol .dot :: a)
  | linkSelect (items : Sentence m (.items .rightBracket) w) :
      Sentence m (.link .select) (.symbol .dot :: .symbol .leftBracket :: w)
  | linkHash (entries : Sentence m .entries w) :
      Sentence m (.link .select) (.symbol .dot :: .symbol .leftBrace :: w)
  | linkValues : Sentence m (.link .values) [.symbol .dot, .symbol .star]
  | linkIndex :
      Sentence m (.link .index) [.symbol .leftBracket, .number n, .symbol .rightBracket]
  | linkSlice (nonzero : step.join ≠ some 0) :
      Sentence m (.link .items)
        (.symbol .leftBracket :: (sliceTokens start stop step ++ [.symbol .rightBracket]))
  | linkEach :
      Sentence m (.link .items) [.symbol .leftBracket, .symbol .star, .symbol .rightBracket]
  | linkFilter (test : Sentence m .operand w) :
      Sentence m (.link .filter) (.symbol .filter :: (w ++ [.symbol .rightBracket]))
  | linkFlatten : Sentence m (.link .flatten) [.symbol .flatten]
  | linkList (items : Sentence m (.items .rightBracket) w)
      (noWildcard : w.head? = some (.symbol .star) →
        w.tail.head? ≠ some (.symbol .rightBracket)) :
      Sentence m (.link .list) (.symbol .leftBracket :: w)
  | lastItem (item : Sentence m .operand w) : Sentence m (.items close) (w ++ [.symbol close])
  | nextItem (item : Sentence m .operand w) (others : Sentence m (.items close) more) :
      Sentence m (.items close) (w ++ .symbol .comma :: more)
  | lastEntry (key : t.key?.isSome) (value : Sentence m .operand w) :
      Sentence m .entries (t :: .symbol .colon :: (w ++ [.symbol .rightBrace]))
  | nextEntry (key : t.key?.isSome) (value : Sentence m .operand w)
      (others : Sentence m .entries more) :
      Sentence m .entries (t :: .symbol .colon :: (w ++ .symbol .comma :: more))

theorem link_cons (link : Sentence m (.link kind) a) :
    ∃ t more, a = t :: more ∧ t.bindingPower = kind.power ∧ t ≠ .symbol .leftParen := by
  cases link <;> exact ⟨_, _, rfl, rfl, by simp⟩

private theorem power_pos (link : Link) : 0 < link.power := by
  cases link <;> decide

theorem connective_power {t : Token} (joins : t.connective?.isSome) :
    0 < t.bindingPower ∧ t.bindingPower < 9 ∧ t ≠ .symbol .leftParen := by
  obtain ⟨build, joins⟩ := Option.isSome_iff_exists.mp joins
  rcases connective_cases joins with ⟨rfl, rfl⟩ | ⟨rfl, rfl⟩ | ⟨rfl, rfl⟩ | ⟨op, rfl, rfl⟩ <;>
    simp [Token.bindingPower]

/-- A chain goes on with tokens that hold what stands before them. -/
theorem chain_begins (chained : Sentence m (.chain chain) (t :: w)) :
    0 < t.bindingPower ∧ t ≠ .symbol .leftParen := by
  generalize shape : t :: w = tokens at chained
  cases chained with
  | done => cases shape
  | joined joins operand =>
    cases shape
    obtain ⟨positive, -, noParen⟩ := connective_power joins
    exact ⟨positive, noParen⟩
  | linked allowed first tail =>
    obtain ⟨u, more, rfl, power, noParen⟩ := link_cons first
    cases shape
    exact ⟨power ▸ power_pos _, noParen⟩

theorem name_cons (name : Sentence m .name a) :
    ∃ t more, a = t :: more ∧ t.StartsMember ∧ t ≠ .symbol .star := by
  cases name <;> exact ⟨_, _, rfl, trivial, by simp⟩

/-- An operand begins with no number and no colon, and with a star only as a value projection. -/
theorem operand_begins (operand : Sentence m .operand w) :
    ∃ t more, w = t :: more ∧ (∀ n, t ≠ .number n) ∧ t ≠ .symbol .colon ∧
      (t = .symbol .star → Sentence m (.chain (.fresh 20)) more) := by
  cases operand with
  | negated | referred => exact ⟨_, _, rfl, by simp, by simp, by simp⟩
  | spread tail => exact ⟨_, _, rfl, by simp, by simp, fun _ => tail⟩
  | begun atom tail =>
    cases atom with
    | named name => cases name <;> exact ⟨_, _, rfl, by simp, by simp, by simp⟩
    | _ => exact ⟨_, _, rfl, by simp, by simp, by simp⟩
  | led leads first tail =>
    cases first <;> first | exact leads.elim | exact ⟨_, _, rfl, by simp, by simp, by simp⟩

/-- Items begin as their first operand does. A bracket behind a star closes them. -/
theorem items_begins (items : Sentence m (.items close) w) :
    ∃ t u more, w = t :: u :: more ∧ (∀ n, t ≠ .number n) ∧ t ≠ .symbol .colon ∧
      (t = .symbol .star → u = .symbol .rightBracket → more = []) := by
  cases items with
  | lastItem item =>
    obtain ⟨t, more, rfl, noNumber, noColon, spread⟩ := operand_begins item
    cases more with
    | nil => exact ⟨t, _, [], rfl, noNumber, noColon, fun _ _ => rfl⟩
    | cons u more =>
      refine ⟨t, u, _, rfl, noNumber, noColon, ?_⟩
      rintro star rfl
      cases (chain_begins (spread star)).1
  | nextItem item others =>
    obtain ⟨t, more, rfl, noNumber, noColon, spread⟩ := operand_begins item
    cases more with
    | nil => exact ⟨t, _, _, rfl, noNumber, noColon, by simp⟩
    | cons u more =>
      refine ⟨t, u, _, rfl, noNumber, noColon, ?_⟩
      rintro star rfl
      cases (chain_begins (spread star)).1

/-- Links that may stand behind a multi-select may stand anywhere. -/
theorem allows_of_shut {m : Manner} (allowed : m.Allows .shut link) (chain : Chain) :
    m.Allows chain link := by
  obtain ⟨noList, absorbed⟩ := allowed
  refine ⟨fun list => (noList list).2.elim, fun strict => ?_⟩
  have flatten := absorbed strict
  cases link <;> first | exact flatten.elim | cases chain <;> trivial

private theorem after_fresh {before chain : Chain} (fresh : (before.after link).Fresh) :
    (chain.after link).Fresh := by
  cases link with
  | name | index | list | select => cases before <;> exact fresh.elim
  | _ => trivial

/-- Where links need not be absorbed, all that matters is whether a list may come next. -/
theorem chain_relaxed (free : m.absorbs = false) (sentence : Sentence m place w) :
    ∀ before chain, place = .chain before → (m.lists → before.Fresh → chain.Fresh) →
      Sentence m (.chain chain) w := by
  induction sentence with
  | done =>
    intro before chain same fresh
    exact .done
  | joined joins operand =>
    intro before chain same fresh
    exact .joined joins operand
  | linked allowed first tail relaxed =>
    intro before chain same fresh
    cases same
    refine .linked ⟨fun list => ?_, fun strict => ?_⟩ first ?_
    · obtain ⟨lists, was⟩ := allowed.1 list
      exact ⟨lists, fresh lists was⟩
    · rw [free] at strict
      cases strict
    · rename_i chained
      exact chained _ _ rfl fun _ => after_fresh
  | _ =>
    intro before chain same
    cases same

/-- What may stand behind a multi-select may stand anywhere. -/
theorem chain_of_shut (chained : Sentence m (.chain .shut) w) (chain : Chain) :
    Sentence m (.chain chain) w := by
  cases strict : m.absorbs with
  | false => exact chain_relaxed strict chained _ _ rfl fun _ => False.elim
  | true =>
    cases chained with
    | done => exact .done
    | joined joins operand => exact .joined joins operand
    | @linked _ link _ _ allowed first tail =>
      have flatten := allowed.2 strict
      cases link with
      | flatten => exact .linked (allows_of_shut allowed chain) first tail
      | _ => exact flatten.elim

/-- A chain that goes on with an operator, or not at all, may stand anywhere. -/
theorem chain_restart (chained : Sentence m (.chain before) w) (below : Below 9 w) (chain : Chain) :
    Sentence m (.chain chain) w := by
  cases chained with
  | done => exact .done
  | joined joins operand => exact .joined joins operand
  | linked allowed first tail =>
    obtain ⟨t, more, rfl, power, -⟩ := link_cons first
    have holds := below t rfl
    rename Link => link
    cases link <;> simp [Link.power] at power <;> omega

end JsonQuery
