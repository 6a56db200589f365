import Mathlib
import JsonQuery.Proofs.Reading

/-! How deeply the groups of an expression are nested in each other. A parenthesis groups unless it
stands behind the name of a function. The count runs over the tokens alone and remembers for every
parenthesis that is open whether it groups; the tokens that denote a part close whatever they open,
so that the nesting of a part is the nesting of its pieces. -/
namespace JsonQuery

/-- How many groups are open at once, at most, in the given tokens and before them. For each
parenthesis that is open before them it is known whether it groups. -/
def deepestGroup : (opened : List Bool) → List Token → Nat
  | opened, [] => opened.count true
  | opened, .functionName _ :: .symbol .leftParen :: more => deepestGroup (false :: opened) more
  | opened, .symbol .leftParen :: more => deepestGroup (true :: opened) more
  | opened, .symbol .rightParen :: more => max (opened.count true) (deepestGroup opened.tail more)
  | opened, _ :: more => deepestGroup opened more

/-- The deepest nesting of groups. -/
def groupNesting (tokens : List Token) : Nat :=
  deepestGroup [] tokens

/-- Tokens that are no parenthesis and announce none. -/
def Token.Plain : Token → Prop
  | .functionName _ => False
  | .symbol .leftParen => False
  | .symbol .rightParen => False
  | _ => True

/-- Tokens that close exactly the parentheses that they open. -/
inductive Balanced : List Token → Prop where
  | nil : Balanced []
  | plain (plain : t.Plain) : Balanced [t]
  | append (first : Balanced front) (second : Balanced back) : Balanced (front ++ back)
  | group (inner : Balanced tokens) :
      Balanced (.symbol .leftParen :: (tokens ++ [.symbol .rightParen]))
  | call (inner : Balanced tokens) :
      Balanced (.functionName name :: .symbol .leftParen :: (tokens ++ [.symbol .rightParen]))

@[simp] theorem deepest_nil (opened : List Bool) : deepestGroup opened [] = opened.count true := by
  simp [deepestGroup]

@[simp] theorem deepest_open (opened : List Bool) (more : List Token) :
    deepestGroup opened (.symbol .leftParen :: more) = deepestGroup (true :: opened) more := by
  simp [deepestGroup]

@[simp] theorem deepest_call (opened : List Bool) (more : List Token) :
    deepestGroup opened (.functionName name :: .symbol .leftParen :: more) =
      deepestGroup (false :: opened) more := by
  simp [deepestGroup]

@[simp] theorem deepest_close (opened : List Bool) (more : List Token) :
    deepestGroup opened (.symbol .rightParen :: more) =
      max (opened.count true) (deepestGroup opened.tail more) := by
  simp [deepestGroup]

private theorem deepest_plain (plain : Token.Plain t) (opened : List Bool) (more : List Token) :
    deepestGroup opened (t :: more) = deepestGroup opened more := by
  cases t with
  | functionName name => exact absurd plain id
  | symbol symbol => cases symbol <;> first | exact absurd plain id | simp [deepestGroup]
  | _ => simp [deepestGroup]

/-- The groups that are open already are counted. -/
theorem opened_le_deepest (opened : List Bool) (tokens : List Token) :
    opened.count true ≤ deepestGroup opened tokens := by
  fun_induction deepestGroup opened tokens with
  | case1 => exact Nat.le_refl _
  | case2 opened name more ih => simpa using ih
  | case3 opened more ih => exact Nat.le_of_succ_le (by simpa using ih)
  | case4 opened more ih => exact Nat.le_max_left _ _
  | case5 opened t more _ _ _ ih => exact ih

/-- The tokens add their own nesting to the groups around them, and leave these open. -/
def Adds (tokens : List Token) : Prop :=
  ∀ opened more, deepestGroup opened (tokens ++ more) =
    max (opened.count true + groupNesting tokens) (deepestGroup opened more)

/-- What stands in a parenthesis is nested once more if the parenthesis groups. -/
theorem deepest_closed (adds : Adds tokens) (groups : Bool) (opened : List Bool)
    (more : List Token) :
    deepestGroup (groups :: opened) (tokens ++ .symbol .rightParen :: more) =
      max (opened.count true + (groupNesting tokens + groups.toNat)) (deepestGroup opened more) := by
  have counted := opened_le_deepest opened more
  rw [adds, deepest_close, List.tail_cons]
  cases groups with
  | false =>
    rw [List.count_cons_of_ne Bool.false_ne_true, Bool.toNat_false]
    omega
  | true =>
    rw [List.count_cons_self, Bool.toNat_true]
    omega

/-- A parenthesis that groups counts once more than what stands inside. -/
theorem nesting_of_group (adds : Adds tokens) :
    groupNesting (.symbol .leftParen :: (tokens ++ [.symbol .rightParen])) =
      groupNesting tokens + 1 := by
  rw [groupNesting, deepest_open, deepest_closed adds]
  simp

/-- The parentheses of a call count for nothing. -/
theorem nesting_of_call (adds : Adds tokens) :
    groupNesting (.functionName name :: .symbol .leftParen :: (tokens ++ [.symbol .rightParen])) =
      groupNesting tokens := by
  rw [groupNesting, deepest_call, deepest_closed adds]
  simp

private theorem balanced_adds (balanced : Balanced tokens) : Adds tokens := by
  induction balanced with
  | nil =>
    intro opened more
    have counted := opened_le_deepest opened more
    simp only [groupNesting, List.nil_append, deepest_nil, List.count_nil]
    omega
  | plain plain =>
    intro opened more
    have counted := opened_le_deepest opened more
    simp only [groupNesting, List.singleton_append, deepest_plain plain, deepest_nil,
      List.count_nil]
    omega
  | @append front back first second front_ih back_ih =>
    intro opened more
    have own : groupNesting (front ++ back) = max (0 + groupNesting front) (groupNesting back) :=
      front_ih [] back
    rw [List.append_assoc, front_ih, back_ih, own]
    omega
  | @group tokens inner ih =>
    intro opened more
    rw [nesting_of_group ih, List.cons_append, List.append_assoc, deepest_open]
    exact deepest_closed ih true opened more
  | @call tokens name inner ih =>
    intro opened more
    rw [nesting_of_call ih, List.cons_append, List.cons_append, List.append_assoc, deepest_call]
    exact deepest_closed ih false opened more

theorem group_nesting_nil : groupNesting [] = 0 := by
  simp [groupNesting]

theorem group_nesting_plain (plain : Token.Plain t) (more : List Token) :
    groupNesting (t :: more) = groupNesting more :=
  deepest_plain plain [] more

theorem group_nesting_symbol (noOpen : symbol ≠ .leftParen) (noClose : symbol ≠ .rightParen)
    (more : List Token) : groupNesting (.symbol symbol :: more) = groupNesting more := by
  refine group_nesting_plain ?_ more
  cases symbol <;> first | exact trivial | exact absurd rfl noOpen | exact absurd rfl noClose

theorem group_nesting_append (balanced : Balanced front) (back : List Token) :
    groupNesting (front ++ back) = max (groupNesting front) (groupNesting back) := by
  simpa [groupNesting] using balanced_adds balanced [] back

theorem group_nesting_group (balanced : Balanced tokens) :
    groupNesting (.symbol .leftParen :: (tokens ++ [.symbol .rightParen])) =
      groupNesting tokens + 1 :=
  nesting_of_group (balanced_adds balanced)

theorem group_nesting_call (balanced : Balanced tokens) :
    groupNesting (.functionName name :: .symbol .leftParen :: (tokens ++ [.symbol .rightParen])) =
      groupNesting tokens :=
  nesting_of_call (balanced_adds balanced)

theorem balanced_cons (plain : Token.Plain t) (balanced : Balanced more) : Balanced (t :: more) :=
  .append (.plain plain) balanced

private theorem balanced_bound (bound : Option Int64) : Balanced (boundTokens bound) := by
  cases bound with
  | none => exact .nil
  | some n => exact .plain trivial

theorem balanced_slice (start stop : Option Int64) (step : Option (Option Int64)) :
    Balanced (sliceTokens start stop step) := by
  refine .append (.append (balanced_bound start) (balanced_cons trivial (balanced_bound stop))) ?_
  cases step with
  | none => exact .nil
  | some bound => exact balanced_cons trivial (balanced_bound bound)

/-- What may close a list of items: a token that is needed to balance the items in a call, and is
none of theirs. -/
def Part.Closes : Part → List Token → Prop
  | .items close, taken => ∃ inner, taken = inner ++ [.symbol close] ∧ Balanced inner
  | _, taken => Balanced taken

theorem connective_plain {t : Token} (joins : t.connective? = some build) : t.Plain := by
  rcases connective_cases joins with ⟨rfl, rfl⟩ | ⟨rfl, rfl⟩ | ⟨rfl, rfl⟩ | ⟨op, rfl, rfl⟩ <;>
    exact trivial

theorem key_plain {t : Token} (key : t.key? = some name) : t.Plain := by
  rcases key_cases key with rfl | rfl <;> exact trivial

/-- Every part is balanced, but for the symbol that closes items. -/
theorem reads_closes (reads : Reads part taken e rest) : part.Closes taken := by
  induction reads with
  | operand head tail head_ih tail_ih => exact .append head_ih tail_ih
  | stop below => exact .nil
  | step holds link tail link_ih tail_ih => exact .append link_ih tail_ih
  | literal | rawString | identifier | quotedIdentifier | current => exact .plain trivial
  | emptyCall => exact .call .nil
  | call args ih =>
    obtain ⟨inner, rfl, balanced⟩ := ih
    exact .call balanced
  | list items noWildcard ih | memberList items ih =>
    obtain ⟨inner, rfl, balanced⟩ := ih
    exact balanced_cons trivial (.append balanced (.plain trivial))
  | values tail ih | hash entries ih | not operand ih | reference operand ih | flatten tail ih
  | innerDot member ih | memberHash entries ih | dot member noWildcard ih =>
    exact balanced_cons trivial ih
  | group inner ih => exact .group ih
  | leadingSuffix suffix ih | followingSuffix suffix ih => exact ih
  | dotValues tail ih => exact balanced_cons trivial (balanced_cons trivial ih)
  | connective joins operand ih => exact balanced_cons (connective_plain joins) ih
  | filter predicate tail predicate_ih tail_ih =>
    exact balanced_cons trivial (.append predicate_ih (balanced_cons trivial tail_ih))
  | index => exact balanced_cons trivial (balanced_cons trivial (.plain trivial))
  | slice nonzero tail ih =>
    exact balanced_cons trivial (.append (balanced_slice _ _ _) (balanced_cons trivial ih))
  | each tail ih =>
    exact balanced_cons trivial (balanced_cons trivial (balanced_cons trivial ih))
  | bare below => exact .nil
  | inner opens operand ih | named starts operand ih => exact ih
  | lastItem item ih => exact ⟨_, rfl, ih⟩
  | nextItem item others item_ih others_ih =>
    obtain ⟨inner, rfl, balanced⟩ := others_ih
    exact ⟨_, by simp, .append item_ih (balanced_cons (t := .symbol .comma) trivial balanced)⟩
  | lastEntry key value ih =>
    exact balanced_cons (key_plain key) (balanced_cons trivial (.append ih (.plain trivial)))
  | nextEntry key value others value_ih others_ih =>
    exact balanced_cons (key_plain key) (balanced_cons trivial
      (.append value_ih (balanced_cons trivial others_ih)))

theorem operand_balanced (reads : Reads (.operand binding) taken e rest) : Balanced taken :=
  reads_closes reads

/-- Arguments are nested as deeply as the call that they belong to. -/
theorem group_nesting_arguments (reads : Reads (.items .rightParen) taken e rest) :
    groupNesting (.functionName name :: .symbol .leftParen :: taken) = groupNesting taken := by
  obtain ⟨inner, rfl, balanced⟩ := reads_closes reads
  rw [group_nesting_call balanced, group_nesting_append balanced]
  simp [groupNesting]

end JsonQuery
