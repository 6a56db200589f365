import JsonQuery.Expr.Depth

/-! The height of an expression: the number of nodes on its longest path from the root to a leaf.
The test against a limit looks no further than the limit, and decides exactly whether the height is
greater. -/
namespace JsonQuery.Expr

mutual

/-- The number of nodes on the longest path from the root to a leaf. -/
def height : Expr → Nat
  | .identity => 1
  | .current => 1
  | .field _ => 1
  | .index _ => 1
  | .slice .. => 1
  | .literal _ => 1
  | .dot left right => max left.height right.height + 1
  | .bracket left right => max left.height right.height + 1
  | .flatten child projection => max child.height projection.height + 1
  | .eachItem child projection => max child.height projection.height + 1
  | .eachValue child projection => max child.height projection.height + 1
  | .filter child predicate projection =>
    max child.height (max predicate.height projection.height) + 1
  | .pipe left right => max left.height right.height + 1
  | .or left right => max left.height right.height + 1
  | .and left right => max left.height right.height + 1
  | .not child => child.height + 1
  | .compare _ left right => max left.height right.height + 1
  | .list elements => tallest elements + 1
  | .hash entries => tallestEntry entries + 1
  | .call _ args => tallest args + 1
  | .reference child => child.height + 1

/-- The height of the tallest of some expressions. -/
def tallest : List Expr → Nat
  | [] => 0
  | e :: rest => max e.height (tallest rest)

/-- The height of the tallest expression behind a key. -/
def tallestEntry : List (String × Expr) → Nat
  | [] => 0
  | (_, e) :: rest => max e.height (tallestEntry rest)

end

theorem height_pos (e : Expr) : 0 < e.height := by
  cases e <;> simp [height]

mutual

/-- An expression is deeper than a limit exactly if its height exceeds the limit. -/
theorem deeper_than_iff (e : Expr) (limit : Nat) : e.deeperThan limit ↔ limit < e.height := by
  cases limit with
  | zero => simp [deeperThan, height_pos]
  | succ below =>
    cases e with
    | identity | current | field | index | slice | literal => simp [deeperThan, height]
    | dot left right | bracket left right | pipe left right | or left right | and left right
    | compare op left right =>
      simp only [deeperThan, height, Bool.or_eq_true, deeper_than_iff]
      omega
    | flatten child projection | eachItem child projection | eachValue child projection =>
      simp only [deeperThan, height, Bool.or_eq_true, deeper_than_iff]
      omega
    | filter child predicate projection =>
      simp only [deeperThan, height, Bool.or_eq_true, deeper_than_iff]
      omega
    | not child | reference child =>
      simp only [deeperThan, height, deeper_than_iff]
      omega
    | list elements | call name elements =>
      simp only [deeperThan, height, any_deeper_iff]
      omega
    | hash entries =>
      simp only [deeperThan, height, any_entry_deeper_iff]
      omega

theorem any_deeper_iff (es : List Expr) (limit : Nat) :
    anyDeeper es limit ↔ limit < tallest es := by
  cases es with
  | nil => simp [anyDeeper, tallest]
  | cons e rest =>
    simp only [anyDeeper, tallest, Bool.or_eq_true, deeper_than_iff, any_deeper_iff]
    omega

theorem any_entry_deeper_iff (entries : List (String × Expr)) (limit : Nat) :
    anyEntryDeeper entries limit ↔ limit < tallestEntry entries := by
  cases entries with
  | nil => simp [anyEntryDeeper, tallestEntry]
  | cons entry rest =>
    obtain ⟨key, e⟩ := entry
    simp only [anyEntryDeeper, tallestEntry, Bool.or_eq_true, deeper_than_iff, any_entry_deeper_iff]
    omega

end

/-- An expression passes a limit exactly if its height stays within. -/
theorem within_limit_iff (e : Expr) (limit : Nat) :
    e.deeperThan limit = false ↔ e.height ≤ limit := by
  rw [← Bool.not_eq_true, deeper_than_iff, Nat.not_lt]

end JsonQuery.Expr
