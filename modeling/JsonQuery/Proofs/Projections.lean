import JsonQuery.Proofs.Nodes
import JsonQuery.Proofs.Reading

/-! Which nodes are applied to what, and whether a projection keeps the links behind it. A projection
that is the last member of a dotted expression counts as that expression's own. -/
namespace JsonQuery

namespace Expr

def isProjection : Expr → Bool
  | .flatten .. => true
  | .eachItem .. => true
  | .eachValue .. => true
  | .filter .. => true
  | _ => false

/-- Whether the tokens that come last belong to a projection, or would do so without a negation. -/
def endsInProjection : Expr → Bool
  | .dot _ right => right.endsInProjection
  | .not child => child.endsInProjection
  | e => e.isProjection

/-- The expression that a link is applied to. Flattening is left out, as it takes projections
whole. -/
@[simp] def target? : Expr → Option Expr
  | .dot left _ => some left
  | .bracket left _ => some left
  | .eachItem child _ => some child
  | .eachValue child _ => some child
  | .filter child _ _ => some child
  | _ => none

/-- No link is applied to an expression that ends in a projection, so that all links behind a
projection have become part of what is applied to its elements. -/
def ChainsInside (e : Expr) : Prop :=
  ∀ node ∈ e.nodes, ∀ target, node.target? = some target → target.endsInProjection = false

private theorem projection_ends (projects : isProjection e) : e.endsInProjection := by
  cases e <;> first | rfl | cases projects

theorem ChainsInside.unprojected (inside : ChainsInside e) :
    ∀ node ∈ e.nodes, ∀ target, node.target? = some target → target.isProjection = false := by
  intro node member target targets
  have ends := inside node member target targets
  cases projects : target.isProjection with
  | false => rfl
  | true =>
    rw [projection_ends projects] at ends
    cases ends

section

variable {left right child projection predicate : Expr}

@[simp] theorem inside_dot : (dot left right).ChainsInside ↔
    left.endsInProjection = false ∧ left.ChainsInside ∧ right.ChainsInside := by
  simp [ChainsInside, or_imp, forall_and]

@[simp] theorem inside_bracket : (bracket left right).ChainsInside ↔
    left.endsInProjection = false ∧ left.ChainsInside ∧ right.ChainsInside := by
  simp [ChainsInside, or_imp, forall_and]

@[simp] theorem inside_eachItem : (eachItem child projection).ChainsInside ↔
    child.endsInProjection = false ∧ child.ChainsInside ∧ projection.ChainsInside := by
  simp [ChainsInside, or_imp, forall_and]

@[simp] theorem inside_eachValue : (eachValue child projection).ChainsInside ↔
    child.endsInProjection = false ∧ child.ChainsInside ∧ projection.ChainsInside := by
  simp [ChainsInside, or_imp, forall_and]

@[simp] theorem inside_filter : (filter child predicate projection).ChainsInside ↔
    child.endsInProjection = false ∧ child.ChainsInside ∧ predicate.ChainsInside ∧
      projection.ChainsInside := by
  simp [ChainsInside, or_imp, forall_and]

@[simp] theorem inside_flatten : (flatten child projection).ChainsInside ↔
    child.ChainsInside ∧ projection.ChainsInside := by
  simp [ChainsInside, or_imp, forall_and]

@[simp] theorem inside_not : (not child).ChainsInside ↔ child.ChainsInside := by
  simp [ChainsInside]

@[simp] theorem inside_reference : (reference child).ChainsInside ↔ child.ChainsInside := by
  simp [ChainsInside]

@[simp] theorem inside_list_cons : (list (child :: es)).ChainsInside ↔
    child.ChainsInside ∧ (list es).ChainsInside := by
  simp [ChainsInside, or_imp, forall_and]

@[simp] theorem inside_hash_cons : (hash ((key, child) :: entries)).ChainsInside ↔
    child.ChainsInside ∧ (hash entries).ChainsInside := by
  simp [ChainsInside, or_imp, forall_and]

@[simp] theorem inside_call : (call name es).ChainsInside ↔ (list es).ChainsInside := by
  simp [ChainsInside]

theorem inside_leaf {e : Expr} (alone : e.nodes = [e]) (untargeted : e.target? = none) :
    e.ChainsInside := by
  intro node member target targets
  rw [alone, List.mem_singleton] at member
  rw [member, untargeted] at targets
  cases targets

theorem inside_identity : identity.ChainsInside := inside_leaf rfl rfl

end

end Expr

open JsonQuery.Expr

theorem connective_inside (joins : Token.connective? t = some build) (left right : Expr) :
    (build left right).ChainsInside ↔ left.ChainsInside ∧ right.ChainsInside := by
  rcases connective_cases joins with ⟨rfl, rfl⟩ | ⟨rfl, rfl⟩ | ⟨rfl, rfl⟩ | ⟨op, rfl, rfl⟩ <;>
    simp [ChainsInside, or_imp, forall_and]

theorem connective_ends (joins : Token.connective? t = some build) (left right : Expr) :
    (build left right).endsInProjection = false := by
  rcases connective_cases joins with ⟨rfl, rfl⟩ | ⟨rfl, rfl⟩ | ⟨rfl, rfl⟩ | ⟨op, rfl, rfl⟩ <;>
    rfl

theorem subscript_inside (inside : (Rules.subscript left right).ChainsInside) :
    left.ChainsInside ∧ left.endsInProjection = false := by
  by_cases nothing : left = .identity
  · subst nothing
    exact ⟨inside_identity, rfl⟩
  · rw [subscript_bracket left right nothing, inside_bracket] at inside
    exact ⟨inside.2.1, inside.1⟩

theorem subscript_ends (last : right.endsInProjection = false) :
    (Rules.subscript left right).endsInProjection = false := by
  by_cases nothing : left = .identity
  · subst nothing
    exact last
  · rw [subscript_bracket left right nothing]
    rfl

/-- What a part goes on from stays in what it denotes, with its chains. -/
theorem base_inside (reads : Reads part taken e rest) (inside : e.ChainsInside) :
    part.base.ChainsInside := by
  induction reads with
  | stop => exact inside
  | step holds link tail next more => exact next (more inside)
  | followingSuffix suffix left => exact left inside
  | dotValues => exact (inside_eachValue.mp inside).2.1
  | dot => exact (inside_dot.mp inside).2.1
  | connective joins operand right => exact ((connective_inside joins _ _).mp inside).1
  | flatten => exact (inside_flatten.mp inside).1
  | filter => exact (inside_filter.mp inside).2.1
  | index => exact (subscript_inside inside).1
  | slice => exact (subscript_inside (inside_eachItem.mp inside).2.1).1
  | each => exact (inside_eachItem.mp inside).2.1
  | _ => exact inside_identity

end JsonQuery
