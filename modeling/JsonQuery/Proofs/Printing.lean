import JsonQuery.Proofs.ReadingCompleteness
import JsonQuery.Proofs.WrittenTokens

/-! A text for every expression that is built from fields, strings, calls, lists, hashes, negations
and connectives, with parentheses only where an operand holds too loosely for its place. The parser
reads the expression back from it. The proof follows the parser's loop: an operand is read in front
of whatever continues it, and what may continue it holds no tighter than its own connective. -/
namespace JsonQuery

namespace Expr

/-- How tightly the connective at the root holds its operands. -/
def power? : Expr → Option Nat
  | .pipe _ _ => some 1
  | .or _ _ => some 2
  | .and _ _ => some 3
  | .compare _ _ _ => some 5
  | _ => none

/-- Tokens in parentheses, where these are needed. -/
def enclose (needed : Bool) (tokens : List Token) : List Token :=
  if needed then .symbol .leftParen :: (tokens ++ [.symbol .rightParen]) else tokens

/-- Two operands and the connective between them. The left one needs parentheses if it holds more
loosely, the right one also if it holds as tightly. -/
def joined (s : Symbol) (power : Nat) (left right : Option Nat) (first second : List Token) :
    List Token :=
  enclose (left.any (· < power)) first ++ .symbol s :: enclose (right.any (· ≤ power)) second

mutual

/-- The tokens of an expression, with the fewest parentheses. -/
def printed : Expr → List Token
  | .field name => [.quotedIdentifier name]
  | .current => [.symbol .current]
  | .literal (.str text) => [.rawString text]
  | .call name args =>
    .functionName name :: .symbol .leftParen :: (printedItems args ++ [.symbol .rightParen])
  | .reference child => .symbol .reference :: printed child
  | .list elements => .symbol .leftBracket :: (printedItems elements ++ [.symbol .rightBracket])
  | .hash entries => .symbol .leftBrace :: (printedEntries entries ++ [.symbol .rightBrace])
  | .not child => .symbol .not :: enclose child.power?.isSome (printed child)
  | .pipe left right => joined .pipe 1 left.power? right.power? (printed left) (printed right)
  | .or left right => joined .or 2 left.power? right.power? (printed left) (printed right)
  | .and left right => joined .and 3 left.power? right.power? (printed left) (printed right)
  | .compare op left right =>
    joined (.comparator op) 5 left.power? right.power? (printed left) (printed right)
  | _ => []

/-- The tokens of expressions with commas between them. -/
def printedItems : List Expr → List Token
  | [] => []
  | [e] => printed e
  | e :: next :: rest => printed e ++ .symbol .comma :: printedItems (next :: rest)

/-- The tokens of keys and their expressions with commas between them. -/
def printedEntries : List (String × Expr) → List Token
  | [] => []
  | [(key, e)] => .quotedIdentifier key :: .symbol .colon :: printed e
  | (key, e) :: next :: rest =>
    .quotedIdentifier key :: .symbol .colon ::
      (printed e ++ .symbol .comma :: printedEntries (next :: rest))

end

/-- The text of an expression. -/
def print (e : Expr) : String :=
  String.ofList (spaced e.printed)

mutual

/-- Expressions that are printed. References stand only where they are the argument of a call. -/
def Printable (argument : Bool) : Expr → Prop
  | .field _ => True
  | .current => True
  | .literal (.str _) => True
  | .call name args => IsName name.toList ∧ AllPrintable true args
  | .reference child => argument = true ∧ Printable false child
  | .list elements => elements ≠ [] ∧ AllPrintable false elements
  | .hash entries => entries ≠ [] ∧ EntriesPrintable entries
  | .not child => Printable false child
  | .pipe left right => Printable false left ∧ Printable false right
  | .or left right => Printable false left ∧ Printable false right
  | .and left right => Printable false left ∧ Printable false right
  | .compare _ left right => Printable false left ∧ Printable false right
  | _ => False

def AllPrintable (argument : Bool) : List Expr → Prop
  | [] => True
  | e :: rest => Printable argument e ∧ AllPrintable argument rest

def EntriesPrintable : List (String × Expr) → Prop
  | [] => True
  | (_, e) :: rest => Printable false e ∧ EntriesPrintable rest

end

end Expr

open JsonQuery.Expr

section Reading

private theorem root_power_pos (known : power? e = some power) : 0 < power := by
  cases e <;> cases known <;> decide

private theorem root_power_le (known : power? e = some power) : power ≤ 45 := by
  cases e <;> cases known <;> decide

/-- The printed tokens are read in front of whatever continues the expression. The binding power
leaves its connective inside, and the tokens behind it hold no tighter than that. -/
def Prints (e : Expr) : Prop :=
  ∀ binding tail result rest, (∀ power, e.power? = some power → binding < power) →
    Below (e.power?.getD 45 + 1) (tail ++ rest) → Reads (.continuing binding e) tail result rest →
      Reads (.operand binding) (e.printed ++ tail) result rest

/-- Where no connective stands at the root, the tokens begin an expression. -/
theorem leading_prints (atom : e.power? = none)
    (leading : ∀ rest, Below 46 rest → Reads .leading e.printed e rest) : Prints e := by
  intro binding tail result rest _ below continues
  rw [atom] at below
  exact .operand (leading _ below) continues

/-- Nothing need continue an expression. -/
theorem prints_operand (prints : Prints e)
    (tight : ∀ power, e.power? = some power → binding < power)
    (loose : binding ≤ 45) (below : Below (binding + 1) rest) :
    Reads (.operand binding) e.printed e rest := by
  have within : binding + 1 ≤ e.power?.getD 45 + 1 := by
    cases known : e.power? with
    | none => exact Nat.succ_le_succ loose
    | some power => exact Nat.succ_le_succ (Nat.le_of_lt (tight power known))
  have read := prints _ [] _ _ tight (below_mono within below) (.stop below)
  rwa [List.append_nil] at read

/-- Parentheses reset the binding power. -/
theorem prints_group (prints : Prints e) (rest : List Token) :
    Reads .leading (.symbol .leftParen :: (e.printed ++ [.symbol .rightParen])) e rest := by
  refine .group (prints_operand prints (fun _ => root_power_pos) (Nat.zero_le _) ?_)
  intro t head
  cases head
  exact Nat.zero_lt_one

private theorem enclosed_operand (prints : Prints e)
    (tight : needed = false → ∀ power, e.power? = some power → binding < power)
    (loose : binding ≤ 45) (below : Below (binding + 1) rest) :
    Reads (.operand binding) (enclose needed e.printed) e rest := by
  cases needed with
  | false => exact prints_operand prints (tight rfl) loose below
  | true =>
    have read := Reads.operand (prints_group prints rest) (.stop below)
    rwa [List.append_nil] at read

/-- A connective is read behind its left operand, which takes no part of what follows. -/
theorem joined_prints (joins : (Token.symbol s).connective? = some build)
    (power : (Token.symbol s).bindingPower = p) (known : (build left right).power? = some p)
    (printed : (build left right).printed =
      joined s p left.power? right.power? left.printed right.printed)
    (first : Prints left) (second : Prints right) : Prints (build left right) := by
  subst power
  intro binding tail result rest tight below continues
  have holds := tight _ known
  have loose := root_power_le known
  rw [known] at below
  have connected : Reads (.following left)
      (.symbol s :: enclose (right.power?.any (· ≤ (Token.symbol s).bindingPower)) right.printed)
      (build left right) (tail ++ rest) := by
    refine .connective joins (enclosed_operand second (fun bare q rightPower => ?_) loose below)
    simpa [rightPower] using bare
  have link := Reads.step holds connected continues
  rw [printed, joined, List.append_assoc, List.cons_append]
  cases needed : left.power?.any (· < (Token.symbol s).bindingPower) with
  | true => exact .operand (prints_group first _) link
  | false =>
    have apart (q : Nat) (leftPower : left.power? = some q) :
        (Token.symbol s).bindingPower ≤ q := by
      simpa [leftPower] using needed
    refine first _ _ _ _ (fun q leftPower => Nat.lt_of_lt_of_le holds (apart q leftPower)) ?_ link
    intro t head
    cases head
    cases leftPower : left.power? with
    | none => exact Nat.lt_succ_of_le loose
    | some q => exact Nat.lt_succ_of_le (apart q leftPower)

/-- An argument is an expression that is read as it stands, or a reference to one. -/
def Argues (e : Expr) : Prop :=
  ∀ rest, Below 1 rest → Reads (.operand 0) e.printed e rest

private theorem prints_argues (prints : Prints e) : Argues e :=
  fun _ below => prints_operand prints (fun _ => root_power_pos) (Nat.zero_le _) below

private theorem reference_argues (prints : Prints e) : Argues (.reference e) := by
  intro rest below
  have read : Reads .leading (Expr.reference e).printed (.reference e) rest := by
    rw [printed]
    exact .reference (prints_argues prints _ below)
  have stopped := Reads.operand read (.stop below)
  rwa [List.append_nil] at stopped

private theorem symbol_below (loose : (Token.symbol s).bindingPower = 0) (rest : List Token) :
    Below 1 (.symbol s :: rest) := by
  intro t head
  cases head
  rw [loose]
  exact Nat.zero_lt_one

private theorem joined_no_star (leftmost : ∀ more, (first ++ more).head? ≠ some (.symbol .star))
    (more : List Token) :
    (joined s p left right first second ++ more).head? ≠ some (.symbol .star) := by
  rw [joined, List.append_assoc]
  cases left.any (· < p) with
  | true => simp [enclose]
  | false => exact leftmost _

/-- No printed expression begins with a wildcard. -/
theorem printed_no_star (e : Expr) (argument : Bool) (printable : Printable argument e) :
    ∀ more, (e.printed ++ more).head? ≠ some (.symbol .star) := by
  cases e with
  | pipe left right | or left right | and left right | compare op left right =>
    rw [Printable] at printable
    rw [printed]
    exact joined_no_star (printed_no_star left false printable.1)
  | literal value => cases value <;> simp_all [printed, Printable]
  | _ => simp_all [printed, Printable]

private theorem items_no_star (nonempty : es ≠ []) (printable : AllPrintable argument es)
    (more : List Token) : (printedItems es ++ more).head? ≠ some (.symbol .star) := by
  cases es with
  | nil => exact absurd rfl nonempty
  | cons e es =>
    rw [AllPrintable] at printable
    cases es with
    | nil =>
      rw [printedItems]
      exact printed_no_star e argument printable.1 more
    | cons next es =>
      rw [printedItems, List.append_assoc]
      exact printed_no_star e argument printable.1 _

/-- Apart from references, arguments are expressions as they stand anywhere. -/
theorem printable_plain (printable : Printable argument e) (plain : ∀ child, e ≠ .reference child) :
    Printable false e := by
  cases e with
  | reference child => exact absurd rfl (plain child)
  | literal value => cases value <;> simp_all [Printable]
  | _ => simp_all [Printable]

mutual

/-- Every expression of the class is read back, in front of whatever continues it. -/
theorem printable_prints (e : Expr) (printable : Printable false e) : Prints e := by
  cases e with
  | field name =>
    refine leading_prints rfl fun rest below => ?_
    rw [printed]
    refine .quotedIdentifier fun paren => ?_
    exact absurd (below _ paren) (by decide)
  | current => exact leading_prints rfl fun rest _ => by rw [printed]; exact .current
  | literal value =>
    cases value with
    | str text => exact leading_prints rfl fun rest _ => by rw [printed]; exact .rawString
    | _ => simp [Printable] at printable
  | call name args =>
    rw [Printable] at printable
    refine leading_prints rfl fun rest _ => ?_
    rw [printed]
    cases args with
    | nil =>
      rw [printedItems]
      exact .emptyCall
    | cons arg args =>
      exact .call
        (printable_items (arg :: args) (List.cons_ne_nil _ _) true printable.2 .rightParen rfl rest)
  | list elements =>
    rw [Printable] at printable
    refine leading_prints rfl fun rest _ => ?_
    rw [printed]
    obtain ⟨nonempty, elementsPrintable⟩ := printable
    refine .list (printable_items _ nonempty false elementsPrintable .rightBracket rfl rest)
      fun star => ?_
    exact absurd star (items_no_star nonempty elementsPrintable _)
  | hash entries =>
    rw [Printable] at printable
    refine leading_prints rfl fun rest _ => ?_
    rw [printed]
    exact .hash (printable_entries entries printable.1 printable.2 rest)
  | not child =>
    rw [Printable] at printable
    refine leading_prints rfl fun rest below => ?_
    rw [printed]
    refine .not (enclosed_operand (printable_prints child printable) (fun bare power known => ?_)
      (Nat.le_refl _) below)
    rw [known] at bare
    cases bare
  | pipe left right =>
    rw [Printable] at printable
    exact joined_prints (s := .pipe) (p := 1) rfl rfl rfl (by rw [printed])
      (printable_prints left printable.1) (printable_prints right printable.2)
  | or left right =>
    rw [Printable] at printable
    exact joined_prints (s := .or) (p := 2) rfl rfl rfl (by rw [printed])
      (printable_prints left printable.1) (printable_prints right printable.2)
  | and left right =>
    rw [Printable] at printable
    exact joined_prints (s := .and) (p := 3) rfl rfl rfl (by rw [printed])
      (printable_prints left printable.1) (printable_prints right printable.2)
  | compare op left right =>
    rw [Printable] at printable
    exact joined_prints (s := .comparator op) (p := 5) rfl rfl rfl (by rw [printed])
      (printable_prints left printable.1) (printable_prints right printable.2)
  | _ => simp [Printable] at printable

theorem printable_items (es : List Expr) (nonempty : es ≠ []) (argument : Bool)
    (printable : AllPrintable argument es) (close : Symbol)
    (loose : (Token.symbol close).bindingPower = 0) (rest : List Token) :
    Reads (.items close) (printedItems es ++ [.symbol close]) (.list es) rest := by
  cases es with
  | nil => exact absurd rfl nonempty
  | cons e es =>
    rw [AllPrintable] at printable
    have first : Argues e := by
      cases e with
      | reference child =>
        have inner := printable.1
        rw [Printable] at inner
        exact reference_argues (printable_prints child inner.2)
      | _ => exact prints_argues (printable_prints _ (printable_plain printable.1 nofun))
    cases es with
    | nil =>
      rw [printedItems]
      exact .lastItem (first _ (symbol_below loose _))
    | cons next es =>
      have others := printable_items (next :: es) nofun argument printable.2 close loose rest
      rw [printedItems, List.append_assoc, List.cons_append]
      exact .nextItem (first _ (symbol_below rfl _)) others

theorem printable_entries (entries : List (String × Expr)) (nonempty : entries ≠ [])
    (printable : EntriesPrintable entries) (rest : List Token) :
    Reads .entries (printedEntries entries ++ [.symbol .rightBrace]) (.hash entries) rest := by
  cases entries with
  | nil => exact absurd rfl nonempty
  | cons entry entries =>
    obtain ⟨key, e⟩ := entry
    rw [EntriesPrintable] at printable
    have value := prints_argues (printable_prints e printable.1)
    cases entries with
    | nil =>
      rw [printedEntries]
      exact .lastEntry rfl (value _ (symbol_below rfl _))
    | cons next entries =>
      have others := printable_entries (next :: entries) nofun printable.2 rest
      rw [printedEntries, List.cons_append, List.cons_append, List.append_assoc, List.cons_append]
      exact .nextEntry rfl (value _ (symbol_below rfl _)) others

end

end Reading

section Lexing

/-- The tokens are legible in front of all that are legible themselves. -/
def Leads (tokens : List Token) : Prop :=
  ∀ more, Legible more → Legible (tokens ++ more)

private theorem leads_nil : Leads [] :=
  fun _ legible => legible

private theorem leads_append (first : Leads front) (second : Leads back) :
    Leads (front ++ back) := by
  intro more legible
  rw [List.append_assoc]
  exact first _ (second more legible)

private theorem leads_symbol (leads : Leads tokens) : Leads (.symbol s :: tokens) :=
  fun more legible => ⟨trivial, leads more legible⟩

private theorem enclose_leads (leads : Leads tokens) (needed : Bool) :
    Leads (enclose needed tokens) := by
  cases needed with
  | false => exact leads
  | true => exact leads_symbol (leads_append leads (leads_symbol leads_nil))

private theorem joined_leads (first : Leads front) (second : Leads back) :
    Leads (joined s p left right front back) :=
  leads_append (enclose_leads first _) (leads_symbol (enclose_leads second _))

mutual

/-- Printed names of functions stand in front of parentheses, and nothing is printed as an unquoted
identifier. -/
theorem printed_leads (e : Expr) (argument : Bool) (printable : Printable argument e) :
    Leads e.printed := by
  cases e with
  | field name =>
    rw [printed]
    exact fun more legible => ⟨trivial, legible⟩
  | current =>
    rw [printed]
    exact leads_symbol leads_nil
  | literal value =>
    cases value with
    | str text =>
      rw [printed]
      exact fun more legible => ⟨trivial, legible⟩
    | _ => simp [Printable] at printable
  | call name args =>
    rw [Printable] at printable
    rw [printed]
    have inner := leads_append (items_leads args true printable.2)
      (leads_symbol (s := .rightParen) leads_nil)
    exact fun more legible => ⟨⟨printable.1, rfl⟩, leads_symbol inner more legible⟩
  | reference child =>
    rw [Printable] at printable
    rw [printed]
    exact leads_symbol (printed_leads child false printable.2)
  | list elements =>
    rw [Printable] at printable
    rw [printed]
    exact leads_symbol (leads_append (items_leads elements false printable.2)
      (leads_symbol leads_nil))
  | hash entries =>
    rw [Printable] at printable
    rw [printed]
    exact leads_symbol (leads_append (entries_lead entries printable.2) (leads_symbol leads_nil))
  | not child =>
    rw [Printable] at printable
    rw [printed]
    exact leads_symbol (enclose_leads (printed_leads child false printable) _)
  | pipe left right | or left right | and left right | compare op left right =>
    rw [Printable] at printable
    rw [printed]
    exact joined_leads (printed_leads left false printable.1)
      (printed_leads right false printable.2)
  | _ => simp [Printable] at printable

theorem items_leads (es : List Expr) (argument : Bool) (printable : AllPrintable argument es) :
    Leads (printedItems es) := by
  cases es with
  | nil =>
    rw [printedItems]
    exact leads_nil
  | cons e es =>
    rw [AllPrintable] at printable
    have first := printed_leads e argument printable.1
    cases es with
    | nil =>
      rw [printedItems]
      exact first
    | cons next es =>
      rw [printedItems]
      exact leads_append first (leads_symbol (items_leads (next :: es) argument printable.2))

theorem entries_lead (entries : List (String × Expr)) (printable : EntriesPrintable entries) :
    Leads (printedEntries entries) := by
  cases entries with
  | nil =>
    rw [printedEntries]
    exact leads_nil
  | cons entry entries =>
    obtain ⟨key, e⟩ := entry
    rw [EntriesPrintable] at printable
    have value := printed_leads e false printable.1
    cases entries with
    | nil =>
      rw [printedEntries]
      exact fun more legible => ⟨trivial, leads_symbol value more legible⟩
    | cons next entries =>
      rw [printedEntries]
      have others := leads_append value
        (leads_symbol (s := .comma) (entries_lead (next :: entries) printable.2))
      exact fun more legible => ⟨trivial, leads_symbol others more legible⟩

end

end Lexing

section Depth

private theorem enclose_nested (balanced : Balanced tokens) (needed : Bool) :
    Balanced (enclose needed tokens) ∧
      groupNesting (enclose needed tokens) ≤ groupNesting tokens + 1 := by
  cases needed with
  | false => exact ⟨balanced, Nat.le_succ _⟩
  | true => exact ⟨.group balanced, Nat.le_of_eq (group_nesting_group balanced)⟩

private theorem plain_nested (t : Token) (plain : t.Plain) (e : Expr) :
    Balanced [t] ∧ groupNesting [t] < e.height := by
  refine ⟨.plain plain, ?_⟩
  rw [group_nesting_plain plain, group_nesting_nil]
  exact Expr.height_pos e

private theorem joined_nested (plain : (Token.symbol s).Plain)
    (first : Balanced front ∧ groupNesting front < n)
    (second : Balanced back ∧ groupNesting back < m) :
    Balanced (joined s p left right front back) ∧
      groupNesting (joined s p left right front back) < max n m + 1 := by
  obtain ⟨leftBalanced, leftNested⟩ := enclose_nested first.1 (left.any (· < p))
  obtain ⟨rightBalanced, rightNested⟩ := enclose_nested second.1 (right.any (· ≤ p))
  refine ⟨.append leftBalanced (balanced_cons plain rightBalanced), ?_⟩
  rw [joined, group_nesting_append leftBalanced, group_nesting_plain plain]
  omega

mutual

/-- Groups are nested less deeply than the expression. -/
theorem printed_nested (e : Expr) : Balanced e.printed ∧ groupNesting e.printed < e.height := by
  cases e with
  | call name args =>
    obtain ⟨balanced, nested⟩ := items_nested args
    rw [printed, Expr.height]
    refine ⟨.call balanced, ?_⟩
    rw [group_nesting_call balanced]
    omega
  | reference child =>
    obtain ⟨balanced, nested⟩ := printed_nested child
    rw [printed, Expr.height]
    refine ⟨balanced_cons trivial balanced, ?_⟩
    rw [group_nesting_symbol (by decide) (by decide)]
    omega
  | list elements =>
    obtain ⟨balanced, nested⟩ := items_nested elements
    rw [printed, Expr.height]
    refine ⟨balanced_cons trivial (.append balanced (.plain trivial)), ?_⟩
    simp (disch := decide) only [group_nesting_symbol, group_nesting_append balanced,
      group_nesting_nil]
    omega
  | hash entries =>
    obtain ⟨balanced, nested⟩ := entries_nested entries
    rw [printed, Expr.height]
    refine ⟨balanced_cons trivial (.append balanced (.plain trivial)), ?_⟩
    simp (disch := decide) only [group_nesting_symbol, group_nesting_append balanced,
      group_nesting_nil]
    omega
  | not child =>
    obtain ⟨childBalanced, childNested⟩ := printed_nested child
    obtain ⟨balanced, nested⟩ := enclose_nested childBalanced child.power?.isSome
    rw [printed, Expr.height]
    refine ⟨balanced_cons trivial balanced, ?_⟩
    rw [group_nesting_symbol (by decide) (by decide)]
    omega
  | pipe left right | or left right | and left right | compare op left right =>
    rw [printed, Expr.height]
    exact joined_nested trivial (printed_nested left) (printed_nested right)
  | field name =>
    rw [printed]
    exact plain_nested (.quotedIdentifier name) trivial _
  | current =>
    rw [printed]
    exact plain_nested (.symbol .current) trivial _
  | literal value =>
    cases value with
    | str text =>
      rw [printed]
      exact plain_nested (.rawString text) trivial _
    | _ =>
      simp only [printed]
      exact ⟨.nil, Expr.height_pos _⟩
  | _ =>
    simp only [printed]
    exact ⟨.nil, Expr.height_pos _⟩

theorem items_nested (es : List Expr) :
    Balanced (printedItems es) ∧ groupNesting (printedItems es) ≤ Expr.tallest es := by
  cases es with
  | nil =>
    rw [printedItems]
    exact ⟨.nil, by simp [groupNesting]⟩
  | cons e es =>
    obtain ⟨balanced, nested⟩ := printed_nested e
    cases es with
    | nil =>
      rw [printedItems, Expr.tallest]
      exact ⟨balanced, by omega⟩
    | cons next es =>
      obtain ⟨othersBalanced, othersNested⟩ := items_nested (next :: es)
      rw [printedItems, Expr.tallest]
      refine ⟨.append balanced (balanced_cons trivial othersBalanced), ?_⟩
      rw [group_nesting_append balanced, group_nesting_symbol (by decide) (by decide)]
      omega

theorem entries_nested (entries : List (String × Expr)) :
    Balanced (printedEntries entries) ∧
      groupNesting (printedEntries entries) ≤ Expr.tallestEntry entries := by
  cases entries with
  | nil =>
    rw [printedEntries]
    exact ⟨.nil, by simp [groupNesting]⟩
  | cons entry entries =>
    obtain ⟨key, e⟩ := entry
    obtain ⟨balanced, nested⟩ := printed_nested e
    cases entries with
    | nil =>
      rw [printedEntries, Expr.tallestEntry]
      refine ⟨balanced_cons trivial (balanced_cons trivial balanced), ?_⟩
      simp (disch := decide) only [group_nesting_plain (t := .quotedIdentifier key) trivial,
        group_nesting_symbol]
      omega
    | cons next entries =>
      obtain ⟨othersBalanced, othersNested⟩ := entries_nested (next :: entries)
      rw [printedEntries, Expr.tallestEntry]
      refine ⟨balanced_cons trivial (balanced_cons trivial
        (.append balanced (balanced_cons trivial othersBalanced))), ?_⟩
      simp (disch := decide) only [group_nesting_plain (t := .quotedIdentifier key) trivial,
        group_nesting_symbol, group_nesting_append balanced]
      omega

end

end Depth

/-- Printing an expression and parsing the text gives the expression back. The height leaves room
for the groups, which are nested less deeply than the expression. -/
theorem Expr.parse_print (e : Expr) (printable : Printable false e) (shallow : e.height ≤ 60) :
    Expr.parse e.print = .ok e := by
  have legible : Legible e.printed := by
    simpa using printed_leads e false printable [] trivial
  have lexes : Lexes e.print.toList e.printed := by
    simpa [print] using legible_lexes e.printed legible
  have reads := prints_argues (printable_prints e printable) [] nofun
  obtain ⟨s, lexed, same⟩ := lexes_text lexes
  have nested := (printed_nested e).2
  rw [← same] at reads nested
  obtain parsed | ⟨n, position, limited, less, -⟩ :=
    reads_parse_within (some maxExprDepth) lexed reads
  · exact parsed
  · have within : n = 128 := Option.some.inj limited.symm
    omega

theorem Expr.parse_print_call :
    Printable false (.and (.or (.field "a") .current) (.not (.compare .less (.literal (.str "b"))
        (.call "length" [.reference (.field "c")])))) ∧
      Expr.parse (print (.and (.or (.field "a") .current) (.not (.compare .less (.literal (.str "b"))
        (.call "length" [.reference (.field "c")]))))) =
        .ok (.and (.or (.field "a") .current) (.not (.compare .less (.literal (.str "b"))
          (.call "length" [.reference (.field "c")])))) := by
  have isName : IsName ['l', 'e', 'n', 'g', 't', 'h'] := by
    refine ⟨⟨'l', _, rfl, rfl⟩, fun c member => ?_⟩
    fin_cases member <;> rfl
  have printable : Printable false (.and (.or (.field "a") .current)
      (.not (.compare .less (.literal (.str "b")) (.call "length" [.reference (.field "c")])))) := by
    simp [Printable, AllPrintable, isName]
  exact ⟨printable, parse_print _ printable (by decide)⟩

example : print (.and (.or (.field "a") .current) (.not (.compare .less (.literal (.str "b"))
    (.call "length" [.reference (.field "c")])))) =
      "( \"a\" || @ ) && ! ( 'b' < length ( & \"c\" ) )" := by
  cbv

end JsonQuery
