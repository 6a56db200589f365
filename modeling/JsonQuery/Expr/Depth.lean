import JsonQuery.Expr.Basic

/-!
How deep an expression is: the number of nodes on its longest path from the root to a leaf,
measured against a limit without looking further than the limit.
-/
namespace JsonQuery.Expr

mutual

/-- Whether some path has more nodes than the limit. -/
def deeperThan (e : Expr) (limit : Nat) : Bool :=
  match limit with
  | 0 => true
  | below + 1 =>
    match e with
    | .identity => false
    | .current => false
    | .field _ => false
    | .index _ => false
    | .slice .. => false
    | .literal _ => false
    | .dot left right => left.deeperThan below || right.deeperThan below
    | .bracket left right => left.deeperThan below || right.deeperThan below
    | .flatten child projection => child.deeperThan below || projection.deeperThan below
    | .eachItem child projection => child.deeperThan below || projection.deeperThan below
    | .eachValue child projection => child.deeperThan below || projection.deeperThan below
    | .filter child predicate projection =>
      child.deeperThan below || predicate.deeperThan below || projection.deeperThan below
    | .pipe left right => left.deeperThan below || right.deeperThan below
    | .or left right => left.deeperThan below || right.deeperThan below
    | .and left right => left.deeperThan below || right.deeperThan below
    | .not child => child.deeperThan below
    | .compare _ left right => left.deeperThan below || right.deeperThan below
    | .list elements => anyDeeper elements below
    | .hash entries => anyEntryDeeper entries below
    | .call _ args => anyDeeper args below
    | .reference child => child.deeperThan below

/-- Whether some expression of a list is deeper than the limit. -/
def anyDeeper (es : List Expr) (limit : Nat) : Bool :=
  match es with
  | [] => false
  | e :: rest => e.deeperThan limit || anyDeeper rest limit

/-- Whether some expression behind a key is deeper than the limit. -/
def anyEntryDeeper (entries : List (String × Expr)) (limit : Nat) : Bool :=
  match entries with
  | [] => false
  | (_, e) :: rest => e.deeperThan limit || anyEntryDeeper rest limit

end

end JsonQuery.Expr
