import JsonQuery.Expr.Basic

/-! The nodes of an expression, read in the order in which they stand in the tree. Statements about
every node of an expression are statements about the members of this list. -/
namespace JsonQuery.Expr

mutual

/-- The expression itself and all expressions inside it. -/
@[simp] def nodes (e : Expr) : List Expr :=
  e :: match e with
  | .identity => []
  | .current => []
  | .field _ => []
  | .index _ => []
  | .slice .. => []
  | .literal _ => []
  | .dot left right => left.nodes ++ right.nodes
  | .bracket left right => left.nodes ++ right.nodes
  | .flatten child projection => child.nodes ++ projection.nodes
  | .eachItem child projection => child.nodes ++ projection.nodes
  | .eachValue child projection => child.nodes ++ projection.nodes
  | .filter child predicate projection => child.nodes ++ predicate.nodes ++ projection.nodes
  | .pipe left right => left.nodes ++ right.nodes
  | .or left right => left.nodes ++ right.nodes
  | .and left right => left.nodes ++ right.nodes
  | .not child => child.nodes
  | .compare _ left right => left.nodes ++ right.nodes
  | .list elements => nodesOf elements
  | .hash entries => entryNodes entries
  | .call _ args => nodesOf args
  | .reference child => child.nodes

/-- All nodes of a list of expressions. -/
@[simp] def nodesOf (es : List Expr) : List Expr :=
  match es with
  | [] => []
  | e :: rest => e.nodes ++ nodesOf rest

/-- All nodes behind the keys of a list of entries. -/
@[simp] def entryNodes (entries : List (String × Expr)) : List Expr :=
  match entries with
  | [] => []
  | (_, e) :: rest => e.nodes ++ entryNodes rest

end

end JsonQuery.Expr
