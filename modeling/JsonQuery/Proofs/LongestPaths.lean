import Mathlib.Data.Nat.Init
import Mathlib.Order.Bounds.Basic
import Mathlib.Order.Nat
import JsonQuery.Proofs.Height
import JsonQuery.Proofs.Nodes

/-! Paths from the root of an expression to its leaves. What stands directly inside an expression is
listed once for every form, and from this list come both the nodes of an expression and its height.
The height is the number of nodes on a longest path, which leaves no part of any form unmeasured. -/
namespace JsonQuery.Expr

/-- The expressions directly inside an expression, from left to right. -/
def children : Expr → List Expr
  | .identity => []
  | .current => []
  | .field _ => []
  | .index _ => []
  | .slice .. => []
  | .literal _ => []
  | .dot left right => [left, right]
  | .bracket left right => [left, right]
  | .flatten child projection => [child, projection]
  | .eachItem child projection => [child, projection]
  | .eachValue child projection => [child, projection]
  | .filter child predicate projection => [child, predicate, projection]
  | .pipe left right => [left, right]
  | .or left right => [left, right]
  | .and left right => [left, right]
  | .not child => [child]
  | .compare _ left right => [left, right]
  | .list elements => elements
  | .hash entries => entries.map Prod.snd
  | .call _ args => args
  | .reference child => [child]

/-- The nodes on a way down from the root of an expression to a leaf. -/
inductive Path : Expr → List Expr → Prop where
  | leaf (bare : e.children = []) : Path e [e]
  | inside (child : c ∈ e.children) (below : Path c path) : Path e (e :: path)

/-! ## Children -/

private theorem tallest_entry_map (entries : List (String × Expr)) :
    tallestEntry entries = tallest (entries.map Prod.snd) := by
  induction entries with
  | nil => rfl
  | cons entry rest ih => rw [tallestEntry, List.map_cons, tallest, ih]

private theorem entry_nodes_map (entries : List (String × Expr)) :
    entryNodes entries = nodesOf (entries.map Prod.snd) := by
  induction entries with
  | nil => rfl
  | cons entry rest ih => rw [entryNodes, List.map_cons, nodesOf, ih]

private theorem height_children (e : Expr) : e.height = tallest e.children + 1 := by
  cases e with
  | hash entries => rw [height, children, tallest_entry_map]
  | _ => simp [height, children, tallest]

theorem nodes_children (e : Expr) : e.nodes = e :: nodesOf e.children := by
  cases e with
  | hash entries => rw [nodes, children, entry_nodes_map]
  | _ => simp [children]

theorem mem_nodes_of : sub ∈ nodesOf es ↔ ∃ e ∈ es, sub ∈ e.nodes := by
  induction es with
  | nil => simp
  | cons e rest ih => simp [ih]

private theorem height_le_tallest (member : e ∈ es) : e.height ≤ tallest es := by
  induction member with
  | head rest =>
    rw [tallest]
    exact le_max_left ..
  | tail first _ ih =>
    rw [tallest]
    exact ih.trans (le_max_right ..)

private theorem tallest_attained (some_inside : es ≠ []) : ∃ e ∈ es, e.height = tallest es := by
  induction es with
  | nil => exact absurd rfl some_inside
  | cons e rest ih =>
    rw [tallest]
    by_cases lower : e.height ≤ tallest rest
    · rw [max_eq_right lower]
      have others : rest ≠ [] := by
        rintro rfl
        exact absurd (height_pos e) (Nat.not_lt.mpr lower)
      obtain ⟨other, member, same⟩ := ih others
      exact ⟨other, List.mem_cons_of_mem e member, same⟩
    · rw [max_eq_left (Nat.le_of_not_le lower)]
      exact ⟨e, List.mem_cons_self, rfl⟩

theorem child_lower {e : Expr} (child : c ∈ e.children) : c.height < e.height := by
  rw [height_children e]
  exact Nat.lt_succ_of_le (height_le_tallest child)

/-! ## Paths -/

private theorem path_length_le {passed : List Expr} (path : Path e passed) :
    passed.length ≤ e.height := by
  induction path with
  | leaf => exact height_pos _
  | inside child _ ih => exact Nat.succ_le_of_lt (Nat.lt_of_le_of_lt ih (child_lower child))

/-- Going down to a tallest child each time makes a path as long as the height. -/
theorem path_attained (e : Expr) : ∃ passed, Path e passed ∧ passed.length = e.height := by
  -- Every step down leaves one less of the height, and no child can have more left.
  induction height : e.height generalizing e with
  | zero => exact absurd height (height_pos e).ne'
  | succ below ih =>
    rw [height_children, Nat.add_right_cancel_iff] at height
    by_cases bare : e.children = []
    · refine ⟨[e], .leaf bare, ?_⟩
      rw [← height, bare]
      rfl
    · obtain ⟨c, child, tall⟩ := tallest_attained bare
      obtain ⟨passed, path, length⟩ := ih c (tall.trans height)
      exact ⟨e :: passed, .inside child path, congrArg Nat.succ length⟩

/-- No node is higher than the whole expression. -/
theorem node_height_le (e : Expr) : ∀ sub ∈ e.nodes, sub.height ≤ e.height := by
  induction height : e.height using Nat.strong_induction_on generalizing e with
  | _ n ih =>
    intro sub member
    subst height
    rw [nodes_children, List.mem_cons, mem_nodes_of] at member
    obtain rfl | ⟨c, child, inside⟩ := member
    · exact Nat.le_refl _
    · have lower := child_lower child
      exact (ih c.height lower c rfl sub inside).trans lower.le

/-- The height is the number of nodes on a longest path from the root to a leaf, and an expression
is deeper than a limit exactly if this number exceeds the limit. So an expression that is deeper
than a limit is deeper than every smaller one, and where the whole expression stays within a limit,
all expressions inside it do. -/
theorem deeper_by_longest (e : Expr) :
    IsGreatest {n | ∃ path, e.Path path ∧ path.length = n} e.height ∧
      (∀ limit, e.deeperThan limit = true ↔ limit < e.height) ∧
      (∀ limit smaller, smaller ≤ limit → e.deeperThan limit = true → e.deeperThan smaller = true) ∧
      ∀ sub ∈ e.nodes, ∀ limit, e.deeperThan limit = false → sub.deeperThan limit = false := by
  refine ⟨⟨path_attained e, ?longest⟩, deeper_than_iff e, ?smaller, ?inside⟩
  case longest =>
    rintro _ ⟨path, down, rfl⟩
    exact path_length_le down
  case smaller =>
    intro limit smaller le deep
    rw [deeper_than_iff] at deep ⊢
    exact Nat.lt_of_le_of_lt le deep
  case inside =>
    intro sub member limit within
    rw [within_limit_iff] at within ⊢
    exact (node_height_le e sub member).trans within

/-- The longest path leads through the predicate of a filter and the value behind a key. -/
theorem deeper_by_longest_entry :
    let inner := Expr.hash [("k", .not (.field "a")), ("l", .current)]
    let e := Expr.filter .current inner .identity
    inner ∈ e.nodes ∧ 1 ≤ 3 ∧ e.deeperThan 3 = true ∧ e.deeperThan 1 = true ∧
      e.deeperThan 4 = false ∧ inner.deeperThan 4 = false := by
  intro inner e
  obtain ⟨-, exact, smaller, inside⟩ := deeper_by_longest e
  have member : inner ∈ e.nodes := by simp [e, inner]
  have deep : e.deeperThan 3 = true := (exact 3).mpr (by decide)
  have within : e.deeperThan 4 = false := by rfl
  have lower := inside inner member 4 within
  exact ⟨member, by decide, deep, smaller 3 1 (by decide) deep, within, lower⟩

end JsonQuery.Expr
