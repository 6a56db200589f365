import Mathlib
import JsonQuery.Expr.Rules

/-! Which tokens make up which expression, as a relation between the tokens of a part, the
expression that it denotes and the tokens that follow it. The relation mentions no limit, no budget
and no offset; binding powers and the tokens that follow decide where a part ends. -/
namespace JsonQuery

/-- The connective that a token stands for between two expressions. -/
def Token.connective? : Token → Option (Expr → Expr → Expr)
  | .symbol .pipe => some .pipe
  | .symbol .or => some .or
  | .symbol .and => some .and
  | .symbol (.comparator op) => some (.compare op)
  | _ => none

/-- The key of a hash entry that a token stands for. -/
def Token.key? : Token → Option String
  | .identifier name => some name
  | .quotedIdentifier name => some name
  | _ => none

/-- Tokens behind a dot that begin an expression of their own. -/
def Token.StartsMember : Token → Prop
  | .identifier _ => True
  | .quotedIdentifier _ => True
  | .functionName _ => True
  | .symbol .star => True
  | _ => False

/-- Whatever comes next holds less tightly than the given power. -/
def Below (power : Nat) (rest : List Token) : Prop :=
  ∀ t, rest.head? = some t → t.bindingPower < power

/-- The number at one end of a slice, if it is written. -/
def boundTokens (bound : Option Int64) : List Token :=
  (bound.map Token.number).toList

/-- A slice between its brackets. The second colon may be left out together with the step. -/
def sliceTokens (start stop : Option Int64) (step : Option (Option Int64)) : List Token :=
  boundTokens start ++ .symbol .colon :: boundTokens stop ++
    (step.map fun bound => .symbol .colon :: boundTokens bound).getD []

/-- The kinds of parts that the rules tell apart. The expression to the left belongs to the kind
where a part goes on from one. -/
inductive Part where
  /-- An expression that extends as far as the binding power allows. -/
  | operand (binding : Nat)
  /-- All that continues an expression within the binding power. -/
  | continuing (binding : Nat) (left : Expr)
  /-- The beginning of an expression. -/
  | leading
  /-- One continuation of an expression. -/
  | following (left : Expr)
  /-- The continuations that may also begin an expression. -/
  | suffix (left : Expr)
  /-- What is applied to the elements of a projection. -/
  | projection (binding : Nat)
  /-- What stands behind a dot. -/
  | member (binding : Nat)
  /-- Items with commas, up to the closing symbol. -/
  | items (close : Symbol)
  /-- Entries with commas, up to the closing brace. -/
  | entries

/-- The expression that a part goes on from; parts that go on from none count as after nothing. -/
def Part.base : Part → Expr
  | .continuing _ left => left
  | .following left => left
  | .suffix left => left
  | _ => .identity

/-- These tokens, followed by the last ones, denote the expression. Items are given as a list
expression and entries as a hash. -/
inductive Reads : Part → List Token → Expr → List Token → Prop where
  | operand (head : Reads .leading first left (more ++ rest))
      (tail : Reads (.continuing binding left) more e rest) :
      Reads (.operand binding) (first ++ more) e rest
  | stop (below : Below (binding + 1) rest) : Reads (.continuing binding left) [] left rest
  | step (holds : binding < t.bindingPower)
      (link : Reads (.following left) (t :: taken) next (more ++ rest))
      (tail : Reads (.continuing binding next) more e rest) :
      Reads (.continuing binding left) (t :: (taken ++ more)) e rest
  | literal : Reads .leading [.literal value] (.literal value) rest
  | rawString : Reads .leading [.rawString text] (.literal (.str text)) rest
  | identifier : Reads .leading [.identifier name] (.field name) rest
  | quotedIdentifier (noCall : rest.head? ≠ some (.symbol .leftParen)) :
      Reads .leading [.quotedIdentifier name] (.field name) rest
  | emptyCall : Reads .leading [.functionName name, .symbol .leftParen, .symbol .rightParen]
      (.call name []) rest
  | call (args : Reads (.items .rightParen) taken (.list es) rest) :
      Reads .leading (.functionName name :: .symbol .leftParen :: taken) (.call name es) rest
  | current : Reads .leading [.symbol .current] .current rest
  | values (tail : Reads (.projection 20) taken p rest) :
      Reads .leading (.symbol .star :: taken) (.eachValue .identity p) rest
  | list (items : Reads (.items .rightBracket) taken e rest)
      (noWildcard : taken.head? = some (.symbol .star) →
        taken.tail.head? ≠ some (.symbol .rightBracket)) :
      Reads .leading (.symbol .leftBracket :: taken) e rest
  | hash (entries : Reads .entries taken e rest) :
      Reads .leading (.symbol .leftBrace :: taken) e rest
  | group (inner : Reads (.operand 0) taken e (.symbol .rightParen :: rest)) :
      Reads .leading (.symbol .leftParen :: (taken ++ [.symbol .rightParen])) e rest
  | not (operand : Reads (.operand 45) taken e rest) :
      Reads .leading (.symbol .not :: taken) (.not e) rest
  | reference (operand : Reads (.operand 0) taken e rest) :
      Reads .leading (.symbol .reference :: taken) (.reference e) rest
  | leadingSuffix (suffix : Reads (.suffix .identity) taken e rest) :
      Reads .leading taken e rest
  | followingSuffix (suffix : Reads (.suffix left) taken e rest) :
      Reads (.following left) taken e rest
  | dotValues (tail : Reads (.projection 40) taken p rest) :
      Reads (.following left) (.symbol .dot :: .symbol .star :: taken) (.eachValue left p) rest
  | dot (member : Reads (.member 40) taken right rest)
      (noWildcard : taken.head? ≠ some (.symbol .star)) :
      Reads (.following left) (.symbol .dot :: taken) (.dot left right) rest
  | connective (joins : t.connective? = some build)
      (operand : Reads (.operand t.bindingPower) taken right rest) :
      Reads (.following left) (t :: taken) (build left right) rest
  | flatten (tail : Reads (.projection 9) taken p rest) :
      Reads (.suffix left) (.symbol .flatten :: taken) (.flatten left p) rest
  | filter (predicate : Reads (.operand 0) first test (.symbol .rightBracket :: more ++ rest))
      (tail : Reads (.projection 21) more p rest) :
      Reads (.suffix left) (.symbol .filter :: (first ++ .symbol .rightBracket :: more))
        (.filter left test p) rest
  | index : Reads (.suffix left) [.symbol .leftBracket, .number n, .symbol .rightBracket]
      (Rules.subscript left (.index n)) rest
  | slice (nonzero : step.join ≠ some 0) (tail : Reads (.projection 20) taken p rest) :
      Reads (.suffix left)
        (.symbol .leftBracket :: (sliceTokens start stop step ++ .symbol .rightBracket :: taken))
        (.eachItem (Rules.subscript left (.slice start stop step.join)) p) rest
  | each (tail : Reads (.projection 20) taken p rest) :
      Reads (.suffix left)
        (.symbol .leftBracket :: .symbol .star :: .symbol .rightBracket :: taken)
        (.eachItem left p) rest
  | bare (below : Below projectionStop rest) : Reads (.projection binding) [] .identity rest
  | inner (opens : t = .symbol .leftBracket ∨ t = .symbol .filter)
      (operand : Reads (.operand binding) (t :: taken) e rest) :
      Reads (.projection binding) (t :: taken) e rest
  | innerDot (member : Reads (.member binding) taken e rest) :
      Reads (.projection binding) (.symbol .dot :: taken) e rest
  | named (starts : t.StartsMember) (operand : Reads (.operand binding) (t :: taken) e rest) :
      Reads (.member binding) (t :: taken) e rest
  | memberList (items : Reads (.items .rightBracket) taken e rest) :
      Reads (.member binding) (.symbol .leftBracket :: taken) e rest
  | memberHash (entries : Reads .entries taken e rest) :
      Reads (.member binding) (.symbol .leftBrace :: taken) e rest
  | lastItem (item : Reads (.operand 0) taken e (.symbol close :: rest)) :
      Reads (.items close) (taken ++ [.symbol close]) (.list [e]) rest
  | nextItem (item : Reads (.operand 0) first e (.symbol .comma :: more ++ rest))
      (others : Reads (.items close) more (.list es) rest) :
      Reads (.items close) (first ++ .symbol .comma :: more) (.list (e :: es)) rest
  | lastEntry (key : t.key? = some name)
      (value : Reads (.operand 0) taken e (.symbol .rightBrace :: rest)) :
      Reads .entries (t :: .symbol .colon :: (taken ++ [.symbol .rightBrace]))
        (.hash [(name, e)]) rest
  | nextEntry (key : t.key? = some name)
      (value : Reads (.operand 0) first e (.symbol .comma :: more ++ rest))
      (others : Reads .entries more (.hash entries) rest) :
      Reads .entries (t :: .symbol .colon :: (first ++ .symbol .comma :: more))
        (.hash ((name, e) :: entries)) rest

/-- The four connectives. Comparators differ in their operation alone. -/
theorem connective_cases (joins : Token.connective? t = some build) :
    (t = .symbol .pipe ∧ build = .pipe) ∨ (t = .symbol .or ∧ build = .or) ∨
      (t = .symbol .and ∧ build = .and) ∨
        ∃ op, t = .symbol (.comparator op) ∧ build = .compare op := by
  cases t with
  | symbol symbol =>
    cases symbol with
    | pipe | or | and | comparator =>
      cases joins
      simp
    | _ => cases joins
  | _ => cases joins

theorem key_cases (key : Token.key? t = some name) :
    t = .identifier name ∨ t = .quotedIdentifier name := by
  cases t with
  | identifier | quotedIdentifier =>
    cases key
    simp
  | _ => cases key

/-- Only the expression that denotes nothing of its own vanishes before a subscript. -/
theorem subscript_bracket (left right : Expr) (something : left ≠ .identity) :
    Rules.subscript left right = .bracket left right := by
  cases left <;> first | rfl | exact absurd rfl something

/-- Parts other than the loop over continuations and the tail of a projection are never empty. -/
theorem leading_cons (reads : Reads .leading taken e rest) : ∃ t others, taken = t :: others := by
  cases reads with
  | leadingSuffix suffix => cases suffix <;> exact ⟨_, _, rfl⟩
  | _ => exact ⟨_, _, rfl⟩

theorem reads_cons (reads : Reads (.operand binding) taken e rest) :
    ∃ t others, taken = t :: others := by
  cases reads with
  | operand head tail =>
    obtain ⟨t, others, rfl⟩ := leading_cons head
    exact ⟨t, _, rfl⟩

/-- Items are closed by a token of their own, so there are at least two. -/
theorem items_cons (reads : Reads (.items close) taken e rest) :
    ∃ t u others, taken = t :: u :: others := by
  cases reads with
  | lastItem item | nextItem item others =>
    obtain ⟨t, _ | ⟨u, others⟩, rfl⟩ := reads_cons item
    all_goals exact ⟨_, _, _, rfl⟩

theorem member_cons (reads : Reads (.member binding) taken e rest) :
    ∃ t others, taken = t :: others := by
  cases reads <;> exact ⟨_, _, rfl⟩

theorem following_cons (reads : Reads (.following left) taken e rest) :
    ∃ t others, taken = t :: others := by
  cases reads with
  | followingSuffix suffix => cases suffix <;> exact ⟨_, _, rfl⟩
  | _ => exact ⟨_, _, rfl⟩

/-- No expression begins with a number, a colon or a closing parenthesis. -/
theorem leading_begins (reads : Reads .leading (t :: taken) e rest) :
    (∀ n, t ≠ .number n) ∧ t ≠ .symbol .colon ∧ t ≠ .symbol .rightParen := by
  cases reads with
  | leadingSuffix suffix => cases suffix <;> simp
  | _ => simp

theorem items_begin (reads : Reads (.items close) taken e rest) :
    (∀ n, taken.head? ≠ some (.number n)) ∧ taken.head? ≠ some (.symbol .colon) ∧
      taken.head? ≠ some (.symbol .rightParen) := by
  cases reads with
  | lastItem item | nextItem item others =>
    cases item with
    | operand head tail =>
      obtain ⟨t, more, rfl⟩ := leading_cons head
      simpa using leading_begins head

theorem items_list (reads : Reads (.items close) taken e rest) : ∃ es, e = .list es := by
  cases reads <;> exact ⟨_, rfl⟩

theorem entries_hash (reads : Reads .entries taken e rest) : ∃ entries, e = .hash entries := by
  cases reads <;> exact ⟨_, rfl⟩

/-- An operand ends where the next token holds no tighter than its binding power. -/
theorem continuing_below (reads : Reads part taken e rest) :
    ∀ binding left, part = .continuing binding left → Below (binding + 1) rest := by
  induction reads with
  | stop below =>
    intro binding left same
    cases same
    exact below
  | step holds link tail _ more =>
    intro binding left same
    cases same
    exact more _ _ rfl
  | _ =>
    intro binding left same
    cases same

theorem operand_below (reads : Reads (.operand binding) taken e rest) : Below (binding + 1) rest := by
  cases reads with
  | operand head tail => exact continuing_below tail _ _ rfl

theorem below_initial (first : more <+: rest) (below : Below power rest) : Below power more := by
  obtain ⟨others, rfl⟩ := first
  intro t head
  apply below t
  cases more with
  | nil => cases head
  | cons u more => exact head

theorem below_mono (le : power ≤ limit) (below : Below power rest) : Below limit rest :=
  fun t head => Nat.lt_of_lt_of_le (below t head) le

end JsonQuery
