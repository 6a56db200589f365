import JsonQuery.Proofs.Nodes
import JsonQuery.Proofs.ReadingSoundness

/-! Nothing is lost between the tokens of a text and the expression that it denotes. Names, values
and numbers reappear once and in their order, and every operator makes exactly one node. -/
namespace JsonQuery

/-- What a token or a node carries besides its kind. -/
inductive Payload where
  | name (text : String)
  | value (v : Value)
  | number (n : Int64)

/-- What a token carries. A raw string carries the same as a literal string. -/
def Token.payload? : Token → Option Payload
  | .identifier name => some (.name name)
  | .quotedIdentifier name => some (.name name)
  | .functionName name => some (.name name)
  | .rawString text => some (.value (.str text))
  | .literal v => some (.value v)
  | .number n => some (.number n)
  | .symbol _ => none

/-- All that tokens carry, in their order. -/
def payloadsOf (tokens : List Token) : List Payload :=
  tokens.filterMap Token.payload?

namespace Expr

mutual

/-- All that an expression carries, read from left to right. -/
def payloads : Expr → List Payload
  | .identity => []
  | .current => []
  | .field name => [.name name]
  | .index n => [.number n]
  | .slice start stop step => [start, stop, step].filterMap fun bound => bound.map .number
  | .literal v => [.value v]
  | .dot left right => left.payloads ++ right.payloads
  | .bracket left right => left.payloads ++ right.payloads
  | .flatten child projection => child.payloads ++ projection.payloads
  | .eachItem child projection => child.payloads ++ projection.payloads
  | .eachValue child projection => child.payloads ++ projection.payloads
  | .filter child predicate projection =>
    child.payloads ++ predicate.payloads ++ projection.payloads
  | .pipe left right => left.payloads ++ right.payloads
  | .or left right => left.payloads ++ right.payloads
  | .and left right => left.payloads ++ right.payloads
  | .not child => child.payloads
  | .compare _ left right => left.payloads ++ right.payloads
  | .list elements => elementPayloads elements
  | .hash entries => entryPayloads entries
  | .call name args => .name name :: elementPayloads args
  | .reference child => child.payloads

/-- What a list of expressions carries. -/
def elementPayloads : List Expr → List Payload
  | [] => []
  | e :: rest => e.payloads ++ elementPayloads rest

/-- What a list of entries carries, each key before its expression. -/
def entryPayloads : List (String × Expr) → List Payload
  | [] => []
  | (key, e) :: rest => .name key :: e.payloads ++ entryPayloads rest

end

/-- The symbol that makes a node of this kind. Slices also make an item projection, without a
star. -/
def origin? : Expr → Option Symbol
  | .current => some .current
  | .flatten .. => some .flatten
  | .filter .. => some .filter
  | .pipe .. => some .pipe
  | .or .. => some .or
  | .and .. => some .and
  | .not _ => some .not
  | .compare op .. => some (.comparator op)
  | .reference _ => some .reference
  | .eachItem .. => some .star
  | .eachValue .. => some .star
  | .identity | .field _ | .index _ | .slice .. | .literal _ | .dot .. | .bracket .. => none
  | .list _ | .hash _ | .call .. => none

/-- How many nodes are of a kind. -/
def count (kind : Expr → Bool) (e : Expr) : Nat :=
  e.nodes.countP kind

def isEachItem : Expr → Bool
  | .eachItem .. => true
  | _ => false

def isEachValue : Expr → Bool
  | .eachValue .. => true
  | _ => false

def isSlice : Expr → Bool
  | .slice .. => true
  | _ => false

/-- A node that the symbol should have made. -/
def standsFor (symbol : Symbol) (e : Expr) : Bool :=
  e.origin? == some symbol

/-- A node that another one of the given symbol comes with, in place of the symbol itself. -/
def sparesSymbol (symbol : Symbol) (e : Expr) : Bool :=
  Symbol.star == symbol && e.isSlice

end Expr

/-- Whether a token is the given symbol. -/
def Token.isSymbol (symbol : Symbol) : Token → Bool
  | .symbol found => found == symbol
  | _ => false

/-- The symbols that make one node each, and nothing else makes a node of that kind. -/
def Symbol.makesNode : Symbol → Bool
  | .pipe => true
  | .or => true
  | .and => true
  | .not => true
  | .comparator _ => true
  | .flatten => true
  | .filter => true
  | .current => true
  | .reference => true
  | _ => false

/-- The closing symbol that a part ends with. -/
def Part.closing : Part → List Token
  | .items close => [.symbol close]
  | _ => []

open JsonQuery.Expr

private theorem payloads_subscript (left right : Expr) :
    (Rules.subscript left right).payloads = left.payloads ++ right.payloads := by
  by_cases nothing : left = .identity
  · subst nothing
    simp [Rules.subscript, payloads]
  · rw [subscript_bracket left right nothing]
    simp [payloads]

private theorem payloads_connective (joins : Token.connective? t = some build) (left right : Expr) :
    (build left right).payloads = left.payloads ++ right.payloads := by
  rcases connective_cases joins with ⟨rfl, rfl⟩ | ⟨rfl, rfl⟩ | ⟨rfl, rfl⟩ | ⟨op, rfl, rfl⟩ <;>
    simp [payloads]

private theorem connective_payload (joins : Token.connective? t = some build) :
    t.payload? = none := by
  rcases connective_cases joins with ⟨rfl, rfl⟩ | ⟨rfl, rfl⟩ | ⟨rfl, rfl⟩ | ⟨op, rfl, rfl⟩ <;>
    rfl

private theorem key_payload (key : Token.key? t = some name) : t.payload? = some (.name name) := by
  rcases key_cases key with rfl | rfl <;> rfl

private theorem payloads_slice (start stop : Option Int64) (step : Option (Option Int64)) :
    payloadsOf (sliceTokens start stop step) = (Expr.slice start stop step.join).payloads := by
  obtain _ | start := start <;> obtain _ | stop := stop <;> obtain _ | _ | step := step <;> rfl

@[simp] theorem symbol_payload (symbol : Symbol) : (Token.symbol symbol).payload? = none := rfl

@[simp] theorem payloadsOf_nil : payloadsOf [] = [] := rfl

@[simp] theorem payloadsOf_cons (t : Token) (more : List Token) :
    payloadsOf (t :: more) = t.payload?.toList ++ payloadsOf more := by
  cases t <;> rfl

@[simp] theorem payloadsOf_append (first more : List Token) :
    payloadsOf (first ++ more) = payloadsOf first ++ payloadsOf more := by
  simp [payloadsOf]

/-- A part carries what the expression before it carries and then what its tokens carry. -/
theorem reads_payloads (reads : Reads part taken e rest) :
    e.payloads = part.base.payloads ++ payloadsOf taken := by
  induction reads with
  | connective joins operand right =>
    simp [Part.base, right, payloads, payloads_connective joins, connective_payload joins]
  | slice nonzero tail p =>
    simp [Part.base, p, payloads, payloads_subscript, payloads_slice, Token.payload?]
  | lastEntry key value e =>
    simp [Part.base, e, payloads, entryPayloads, key_payload key]
  | nextEntry key value others e es =>
    simp only [Part.base, payloads] at e es
    simp [Part.base, e, es, payloads, entryPayloads, key_payload key]
  | _ =>
    simp_all [Part.base, payloads, elementPayloads, payloads_subscript, Token.payload?]

private theorem count_subscript (left right : Expr) (leaf : kind .identity = false)
    (inner : ∀ l r, kind (.bracket l r) = false) :
    (Rules.subscript left right).count kind = left.count kind + right.count kind := by
  by_cases nothing : left = .identity
  · subst nothing
    simp [Rules.subscript, count, nodes, leaf]
  · rw [subscript_bracket left right nothing]
    simp [count, nodes, inner]

private theorem count_connective (joins : Token.connective? t = some build) (left right : Expr) :
    (build left right).count kind =
      (kind (build left right)).toNat + left.count kind + right.count kind := by
  rcases connective_cases joins with ⟨rfl, rfl⟩ | ⟨rfl, rfl⟩ | ⟨rfl, rfl⟩ | ⟨op, rfl, rfl⟩ <;>
    simp +arith [count, List.countP_cons, Bool.toNat, Bool.cond_eq_ite]

private theorem identity_standsFor : Expr.identity.count (standsFor symbol) = 0 := rfl

private theorem identity_sparesSymbol : Expr.identity.count (sparesSymbol symbol) = 0 := by
  simp [count, nodes, sparesSymbol, isSlice]

private theorem subscript_standsFor (left right : Expr) :
    (Rules.subscript left right).count (standsFor symbol) =
      left.count (standsFor symbol) + right.count (standsFor symbol) :=
  count_subscript left right rfl fun _ _ => rfl

private theorem subscript_sparesSymbol (left right : Expr) :
    (Rules.subscript left right).count (sparesSymbol symbol) =
      left.count (sparesSymbol symbol) + right.count (sparesSymbol symbol) := by
  apply count_subscript <;> simp [sparesSymbol, isSlice]

private theorem slice_standsFor :
    (Expr.slice start stop step).count (standsFor symbol) = 0 := rfl

private theorem slice_sparesSymbol :
    (Expr.slice start stop step).count (sparesSymbol symbol) = (Symbol.star == symbol).toNat := by
  cases spared : Symbol.star == symbol <;> simp [count, nodes, sparesSymbol, isSlice, spared]

private theorem count_eachItem (child projection : Expr) :
    (Expr.eachItem child projection).count kind =
      (kind (.eachItem child projection)).toNat + child.count kind + projection.count kind := by
  simp only [count, nodes, List.countP_cons, List.countP_append]
  cases kind (.eachItem child projection) <;> simp +arith

private theorem connective_standsFor (joins : Token.connective? t = some build)
    (left right : Expr) :
    (build left right).standsFor symbol = t.isSymbol symbol := by
  rcases connective_cases joins with ⟨rfl, rfl⟩ | ⟨rfl, rfl⟩ | ⟨rfl, rfl⟩ | ⟨op, rfl, rfl⟩ <;>
    rfl

private theorem connective_sparesSymbol (joins : Token.connective? t = some build)
    (left right : Expr) :
    (build left right).sparesSymbol symbol = false := by
  rcases connective_cases joins with ⟨rfl, rfl⟩ | ⟨rfl, rfl⟩ | ⟨rfl, rfl⟩ | ⟨op, rfl, rfl⟩ <;>
    simp [sparesSymbol, isSlice]

/-- Symbols that make a node or a star, and so none that only hold other tokens together. -/
theorem ne_of_counted (counted : Symbol.makesNode symbol ∨ symbol = .star) :
    ∀ found ∈ [Symbol.dot, .leftBracket, .rightBracket, .leftBrace, .rightBrace, .colon, .comma,
      .leftParen, .rightParen], found ≠ symbol := by
  cases symbol <;> simp [Symbol.makesNode] at counted ⊢

@[simp] theorem isSymbol_symbol :
    Token.isSymbol symbol (.symbol found) = (found == symbol) := rfl

private theorem key_isSymbol (key : Token.key? t = some name) : t.isSymbol symbol = false := by
  rcases key_cases key with rfl | rfl <;> rfl

private theorem countP_slice (noColon : Symbol.colon ≠ symbol) (start stop : Option Int64)
    (step : Option (Option Int64)) :
    (sliceTokens start stop step).countP (Token.isSymbol symbol) = 0 := by
  obtain _ | start := start <;> obtain _ | stop := stop <;> obtain _ | _ | step := step <;>
    simp [sliceTokens, boundTokens, Token.isSymbol, noColon]

/-- A part has the nodes of a symbol that the expression before it has, and one for every such
symbol among its tokens. -/
theorem reads_balance (counted : Symbol.makesNode symbol ∨ symbol = .star)
    (reads : Reads part taken e rest) :
    e.count (standsFor symbol) + part.base.count (sparesSymbol symbol) +
        part.closing.countP (Token.isSymbol symbol) =
      part.base.count (standsFor symbol) + taken.countP (Token.isSymbol symbol) +
        e.count (sparesSymbol symbol) := by
  have uncounted := ne_of_counted counted
  simp only [List.forall_mem_cons] at uncounted
  induction reads with
  | connective joins operand right =>
    simp only [Part.base, Part.closing, List.countP_nil, List.countP_cons, count_connective joins,
      connective_standsFor joins, connective_sparesSymbol joins, identity_standsFor,
      identity_sparesSymbol] at right ⊢
    cases Token.isSymbol symbol _ <;> simp at right ⊢ <;> omega
  | index =>
    simp only [Part.base, Part.closing, subscript_standsFor, subscript_sparesSymbol]
    simp_all [count, nodes, standsFor, sparesSymbol, isSlice, origin?, Token.isSymbol]
  | slice nonzero tail p =>
    simp only [Part.base, Part.closing, count_eachItem, subscript_standsFor,
      subscript_sparesSymbol, List.countP_cons, List.countP_append, countP_slice uncounted.2.2.2.2.2.1,
      slice_standsFor, slice_sparesSymbol, identity_standsFor, identity_sparesSymbol] at p ⊢
    simp_all [standsFor, sparesSymbol, isSlice, origin?, Token.isSymbol]
    omega
  | lastEntry key value e =>
    simp_all [Part.base, Part.closing, count, nodes, entryNodes, standsFor,
      sparesSymbol, isSlice, origin?, key_isSymbol key]
  | nextEntry key value others e es =>
    simp_all [Part.base, Part.closing, count, nodes, entryNodes, standsFor,
      sparesSymbol, isSlice, origin?, key_isSymbol key]
    omega
  | _ =>
    simp_all [Part.base, Part.closing, count, nodes, nodesOf, List.countP_cons, standsFor,
      sparesSymbol, isSlice, origin?, Token.isSymbol] <;>
    omega

private theorem made_spares_nothing (makes : Symbol.makesNode symbol) (e : Expr) :
    e.count (sparesSymbol symbol) = 0 := by
  cases symbol <;> simp [Symbol.makesNode] at makes <;> simp [count, sparesSymbol]

private theorem star_stands (e : Expr) :
    e.count (standsFor .star) = e.count isEachValue + e.count isEachItem := by
  unfold count
  induction e.nodes with
  | nil => rfl
  | cons node others counts =>
    cases node <;>
      simp_all [List.countP_cons, standsFor, origin?, isEachValue, isEachItem] <;> omega

private theorem star_spares (e : Expr) : e.count (sparesSymbol .star) = e.count isSlice := rfl

/-- The parser loses, repeats and reorders nothing. The expression carries what the tokens of its
text carry, in their order, it has one node for each operator, and one item or value projection for
each star and each slice. -/
theorem Expr.parse_keeps_tokens (parsed : Expr.parse text = .ok e) :
    ∃ s, TokenStream.ofText text = .ok s ∧ e.payloads = payloadsOf s.tokens ∧
      (∀ symbol, symbol.makesNode →
        e.count (standsFor symbol) = s.tokens.countP (Token.isSymbol symbol)) ∧
      s.tokens.countP (Token.isSymbol .star) + e.count isSlice =
        e.count isEachValue + e.count isEachItem := by
  obtain ⟨s, lexed, ⟨none, rfl⟩ | reads⟩ := parse_within_reads parsed
  · refine ⟨s, lexed, ?_⟩
    rw [none]
    exact ⟨rfl, fun symbol _ => rfl, rfl⟩
  · refine ⟨s, lexed, by simpa [Part.base, payloads] using reads_payloads reads, ?_, ?_⟩
    · intro symbol makes
      have balance := reads_balance (.inl makes) reads
      simpa [Part.base, Part.closing, identity_standsFor, made_spares_nothing makes] using balance
    · have balance := reads_balance (.inr rfl) reads
      simp only [Part.base, Part.closing, List.countP_nil, identity_standsFor,
        identity_sparesSymbol, star_stands, star_spares] at balance
      omega

theorem Expr.parse_keeps_tokens_sliced :
    Expr.parse "a[0:1].*" = .ok (.eachItem (.bracket (.field "a") (.slice (some 0) (some 1) none))
        (.eachValue .identity .identity)) ∧
      ∃ s, TokenStream.ofText "a[0:1].*" = .ok s ∧
        payloadsOf s.tokens = [.name "a", .number 0, .number 1] ∧
        s.tokens.countP (Token.isSymbol .star) + 1 = 2 := by
  have parsed : Expr.parse "a[0:1].*" =
      .ok (.eachItem (.bracket (.field "a") (.slice (some 0) (some 1) none))
        (.eachValue .identity .identity)) := by cbv
  obtain ⟨s, lexed, carried, -, stars⟩ := Expr.parse_keeps_tokens parsed
  exact ⟨parsed, s, lexed, carried.symm, stars⟩

end JsonQuery
