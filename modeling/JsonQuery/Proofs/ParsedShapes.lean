import JsonQuery.Eval
import JsonQuery.Proofs.ChainGrammar
import JsonQuery.Proofs.Lexing
import JsonQuery.Proofs.Payloads
import JsonQuery.Proofs.Slices

/-! What can stand where in the expression of a text. Which token begins a part and how far the
part extends decide which kinds of expressions it can denote, so that what is applied to the
elements of a projection, or stands behind a dot, is never of a kind that holds too loosely. -/
namespace JsonQuery

/-! ## Roles -/

/-- What an expression is to the one around it. -/
inductive Role where
  /-- There is nothing around it. -/
  | whole
  /-- Its items are projected. -/
  | items
  /-- Another kind of projection is made of it. -/
  | source
  /-- It is applied to the elements of a projection. -/
  | projected
  /-- It stands behind a dot. -/
  | member
  /-- It stands in brackets behind another one. -/
  | subscript
  /-- It stands anywhere else. -/
  | operand

namespace Expr

mutual

/-- The expression and all expressions inside it, with their roles. -/
@[simp] def roles (role : Role) (e : Expr) : List (Role × Expr) :=
  (role, e) :: match e with
  | .identity => []
  | .current => []
  | .field _ => []
  | .index _ => []
  | .slice .. => []
  | .literal _ => []
  | .dot left right => left.roles .operand ++ right.roles .member
  | .bracket left right => left.roles .operand ++ right.roles .subscript
  | .flatten child projection => child.roles .source ++ projection.roles .projected
  | .eachItem child projection => child.roles .items ++ projection.roles .projected
  | .eachValue child projection => child.roles .source ++ projection.roles .projected
  | .filter child predicate projection =>
    child.roles .source ++ predicate.roles .operand ++ projection.roles .projected
  | .pipe left right => left.roles .operand ++ right.roles .operand
  | .or left right => left.roles .operand ++ right.roles .operand
  | .and left right => left.roles .operand ++ right.roles .operand
  | .not child => child.roles .operand
  | .compare _ left right => left.roles .operand ++ right.roles .operand
  | .list elements => elementRoles elements
  | .hash entries => entryRoles entries
  | .call _ args => elementRoles args
  | .reference child => child.roles .operand

/-- All that stands in a list of expressions. -/
@[simp] def elementRoles (es : List Expr) : List (Role × Expr) :=
  match es with
  | [] => []
  | e :: rest => e.roles .operand ++ elementRoles rest

/-- All that stands behind the keys of a list of entries. -/
@[simp] def entryRoles (entries : List (String × Expr)) : List (Role × Expr) :=
  match entries with
  | [] => []
  | (_, e) :: rest => e.roles .operand ++ entryRoles rest

end

mutual

/-- Every node has a role, and nothing else has. -/
theorem roles_nodes (role : Role) (e : Expr) : (e.roles role).map Prod.snd = e.nodes := by
  cases e with
  | identity | current | field | index | slice | literal => rfl
  | dot left right | bracket left right | pipe left right | or left right | and left right
  | compare op left right =>
    simp only [roles, nodes, List.map_cons, List.map_append, roles_nodes _ left,
      roles_nodes _ right]
  | flatten child projection | eachItem child projection | eachValue child projection =>
    simp only [roles, nodes, List.map_cons, List.map_append, roles_nodes _ child,
      roles_nodes _ projection]
  | filter child predicate projection =>
    simp only [roles, nodes, List.map_cons, List.map_append, roles_nodes _ child,
      roles_nodes _ predicate, roles_nodes _ projection]
  | not child | reference child =>
    simp only [roles, nodes, List.map_cons, roles_nodes _ child]
  | list elements | call name elements =>
    simp only [roles, nodes, List.map_cons, element_roles_nodes elements]
  | hash entries => simp only [roles, nodes, List.map_cons, entry_roles_nodes entries]

theorem element_roles_nodes (es : List Expr) : (elementRoles es).map Prod.snd = nodesOf es := by
  cases es with
  | nil => rfl
  | cons e rest =>
    simp only [elementRoles, nodesOf, List.map_append, roles_nodes _ e, element_roles_nodes rest]

theorem entry_roles_nodes (entries : List (String × Expr)) :
    (entryRoles entries).map Prod.snd = entryNodes entries := by
  cases entries with
  | nil => rfl
  | cons entry rest =>
    obtain ⟨key, e⟩ := entry
    simp only [entryRoles, entryNodes, List.map_append, roles_nodes _ e, entry_roles_nodes rest]

end

/-- What brackets can hold behind an expression. -/
def isSubscript : Expr → Bool
  | .index _ => true
  | .slice .. => true
  | _ => false

/-- What can stand behind a dot. -/
def isMember : Expr → Bool
  | .field _ => true
  | .call .. => true
  | .bracket .. => true
  | .eachItem .. => true
  | .list _ => true
  | .hash _ => true
  | _ => false

/-- What holds too loosely to be applied to the elements of a projection, or cannot stand behind
one. -/
def isLoose : Expr → Bool
  | .pipe .. => true
  | .or .. => true
  | .and .. => true
  | .compare .. => true
  | .not _ => true
  | .flatten .. => true
  | .literal _ => true
  | .current => true
  | .reference _ => true
  | _ => false

end Expr

/-- The expression may have the role. -/
@[mk_iff] structure Role.Fits (role : Role) (e : Expr) : Prop where
  /-- What is not written is the current value before or behind a projection. -/
  identity : e = .identity → role = .items ∨ role = .source ∨ role = .projected
  /-- The items of a slice are projected, whether it stands alone or behind another expression. -/
  slice : e.isSlice → role = .items ∨ role = .subscript
  sliced : ∀ left start stop step, e = .bracket left (.slice start stop step) → role = .items
  step : ∀ start stop step, e = .slice start stop step → step ≠ some 0
  subscript : role = .subscript → e.isSubscript
  member : role = .member → e.isMember
  projected : role = .projected → e.isLoose = false
  filled : e ≠ .list [] ∧ e ≠ .hash []

namespace Expr

/-- Everything in the expression fits its role, if the expression has this one. -/
def Shaped (role : Role) (e : Expr) : Prop :=
  ∀ within node, (within, node) ∈ e.roles role → within.Fits node

section

variable {role : Role} {left right child projection predicate : Expr}

private theorem shaped_fits (shaped : Shaped role e) : role.Fits e := by
  refine shaped _ _ ?_
  cases e <;> exact List.mem_cons_self

/-- What may stand alone is judged by what is inside it. -/
theorem shaped_alone (fits : Role.operand.Fits e) : Shaped .operand e ↔
    ∀ within node, (within, node) ∈ (e.roles .operand).tail → within.Fits node := by
  have first : e.roles .operand = (.operand, e) :: (e.roles .operand).tail := by cases e <;> rfl
  rw [Shaped, first]
  simp [or_imp, forall_and, fits]

private theorem shaped_bracket : Shaped role (bracket left right) ↔
    role.Fits (bracket left right) ∧ Shaped .operand left ∧ Shaped .subscript right := by
  simp [Shaped, or_imp, forall_and]

private theorem shaped_dot : Shaped .operand (dot left right) ↔
    Shaped .operand left ∧ Shaped .member right := by
  rw [shaped_alone (by simp [Role.fits_iff, isSlice])]
  simp [Shaped, or_imp, forall_and]

private theorem shaped_flatten : Shaped .operand (flatten child projection) ↔
    Shaped .source child ∧ Shaped .projected projection := by
  rw [shaped_alone (by simp [Role.fits_iff, isSlice])]
  simp [Shaped, or_imp, forall_and]

private theorem shaped_eachItem : Shaped .operand (eachItem child projection) ↔
    Shaped .items child ∧ Shaped .projected projection := by
  rw [shaped_alone (by simp [Role.fits_iff, isSlice])]
  simp [Shaped, or_imp, forall_and]

private theorem shaped_eachValue : Shaped .operand (eachValue child projection) ↔
    Shaped .source child ∧ Shaped .projected projection := by
  rw [shaped_alone (by simp [Role.fits_iff, isSlice])]
  simp [Shaped, or_imp, forall_and]

private theorem shaped_filter : Shaped .operand (filter child predicate projection) ↔
    Shaped .source child ∧ Shaped .operand predicate ∧ Shaped .projected projection := by
  rw [shaped_alone (by simp [Role.fits_iff, isSlice])]
  simp [Shaped, or_imp, forall_and]

private theorem shaped_connective {build : Expr → Expr → Expr}
    (joins : Token.connective? t = some build) :
    Shaped .operand (build left right) ↔ Shaped .operand left ∧ Shaped .operand right := by
  rcases connective_cases joins with ⟨-, rfl⟩ | ⟨-, rfl⟩ | ⟨-, rfl⟩ | ⟨op, -, rfl⟩
  all_goals
    rw [shaped_alone (by simp [Role.fits_iff, isSlice])]
    simp [Shaped, or_imp, forall_and]

private theorem shaped_not : Shaped .operand (not child) ↔ Shaped .operand child := by
  rw [shaped_alone (by simp [Role.fits_iff, isSlice])]
  simp [Shaped]

private theorem shaped_reference : Shaped .operand (reference child) ↔ Shaped .operand child := by
  rw [shaped_alone (by simp [Role.fits_iff, isSlice])]
  simp [Shaped]

private theorem mem_elementRoles {es : List Expr} {placed : Role × Expr} :
    placed ∈ elementRoles es ↔ ∃ e ∈ es, placed ∈ e.roles .operand := by
  induction es with
  | nil => simp
  | cons e rest among => simp only [elementRoles, List.mem_append, among, List.exists_mem_cons_iff]

private theorem mem_entryRoles {entries : List (String × Expr)} {placed : Role × Expr} :
    placed ∈ entryRoles entries ↔ ∃ entry ∈ entries, placed ∈ entry.2.roles .operand := by
  induction entries with
  | nil => simp
  | cons entry rest among =>
    simp only [entryRoles, List.mem_append, among, List.exists_mem_cons_iff]

private theorem shaped_call {es : List Expr} : Shaped .operand (call name es) ↔
    ∀ e ∈ es, Shaped .operand e := by
  rw [shaped_alone (by simp [Role.fits_iff, isSlice])]
  simp only [roles, List.tail_cons, mem_elementRoles, Shaped]
  grind

private theorem shaped_list {es : List Expr} : Shaped .operand (list es) ↔
    es ≠ [] ∧ ∀ e ∈ es, Shaped .operand e := by
  by_cases filled : es = []
  · subst filled
    exact iff_of_false (fun shaped => (shaped_fits shaped).filled.1 rfl) fun shaped => shaped.1 rfl
  · rw [shaped_alone (by simp [Role.fits_iff, isSlice, filled])]
    simp only [roles, List.tail_cons, mem_elementRoles, Shaped]
    grind

private theorem shaped_hash {entries : List (String × Expr)} : Shaped .operand (hash entries) ↔
    entries ≠ [] ∧ ∀ entry ∈ entries, Shaped .operand entry.2 := by
  by_cases filled : entries = []
  · subst filled
    exact iff_of_false (fun shaped => (shaped_fits shaped).filled.2 rfl) fun shaped => shaped.1 rfl
  · rw [shaped_alone (by simp [Role.fits_iff, isSlice, filled])]
    simp only [roles, List.tail_cons, mem_entryRoles, Shaped]
    grind

/-- What stands alone can also have another role, if its kind is one that fits. -/
theorem shaped_stands (shaped : Shaped .operand e) (elsewhere : role ≠ .subscript)
    (member : role = .member → e.isMember) (projected : role = .projected → e.isLoose = false) :
    Shaped role e := by
  have fits := shaped_fits shaped
  have moved : role.Fits e :=
    { identity := fun same => by simpa using fits.identity same
      slice := fun same => by simpa using fits.slice same
      sliced := fun left start stop step same => by simpa using fits.sliced _ _ _ _ same
      step := fits.step
      subscript := fun same => absurd same elsewhere
      member, projected
      filled := fits.filled }
  intro within node among
  -- The role of an expression does not change those inside it.
  cases e with
  | _ =>
    rw [roles, List.mem_cons] at among
    obtain ⟨rfl, rfl⟩ | among := among
    · exact moved
    · refine shaped _ _ ?_
      rw [roles]
      exact List.mem_cons_of_mem _ among

end

/-! ## Kinds -/

/-- What each link keeps, a whole chain of links keeps. -/
theorem continuing_keeps (kept : Expr → Prop)
    (keeps : ∀ t taken left e rest, binding < t.bindingPower →
      Reads (.following left) (t :: taken) e rest → kept left → kept e)
    (reads : Reads part taken e rest) :
    ∀ left, part = .continuing binding left → kept left → kept e := by
  induction reads with
  | stop below =>
    rintro left ⟨⟩ base
    exact base
  | step holds link tail _ chain =>
    rintro left ⟨⟩ base
    exact chain _ rfl (keeps _ _ _ _ _ holds link base)
  | _ =>
    rintro left ⟨⟩

/-- Links that hold tighter than operators and flattenings do not make anything loose. -/
theorem following_tight (link : Reads (.following left) (t :: taken) e rest)
    (holds : 9 < t.bindingPower) : e.isLoose = false := by
  cases link with
  | followingSuffix suffix =>
    cases suffix with
    | flatten tail => simp [Token.bindingPower] at holds
    | index => cases left <;> rfl
    | filter | slice | each => rfl
  | dotValues | dot => rfl
  | connective joins operand =>
    have power := connective_power (Option.isSome_of_eq_some joins)
    omega

/-- Only brackets hold tighter than a dot. -/
theorem following_member (link : Reads (.following left) (t :: taken) e rest)
    (holds : 40 < t.bindingPower) (something : left ≠ .identity) : e.isMember := by
  cases link with
  | followingSuffix suffix =>
    cases suffix with
    | flatten | filter => simp [Token.bindingPower] at holds
    | index =>
      rw [subscript_bracket _ _ something]
      rfl
    | slice | each => rfl
  | dotValues | dot => simp [Token.bindingPower] at holds
  | connective joins operand =>
    have power := connective_power (Option.isSome_of_eq_some joins)
    omega

/-- What begins as a member does, or with a bracket, is not loose. -/
theorem leading_tight (reads : Reads .leading (t :: taken) e rest)
    (opens : t.StartsMember ∨ t = .symbol .leftBracket ∨ t = .symbol .filter) :
    e.isLoose = false := by
  cases reads with
  | leadingSuffix suffix =>
    cases suffix with
    | flatten => simp [Token.StartsMember] at opens
    | index | filter | slice | each => rfl
  | list items =>
    obtain ⟨es, rfl⟩ := items_list items
    rfl
  | hash entries => simp [Token.StartsMember] at opens
  | group | literal | rawString | current | not | reference => simp [Token.StartsMember] at opens
  | identifier | quotedIdentifier | emptyCall | call | values => rfl

private theorem leading_member (reads : Reads .leading (t :: taken) e rest)
    (starts : t.StartsMember)
    (noStar : t ≠ .symbol .star) : e.isMember := by
  cases reads with
  | leadingSuffix suffix => cases suffix <;> exact starts.elim
  | identifier | quotedIdentifier | emptyCall | call => rfl
  | values => exact absurd rfl noStar
  | _ => exact starts.elim

private theorem operand_tight (reads : Reads (.operand binding) (t :: taken) e rest)
    (tight : 9 ≤ binding)
    (opens : t.StartsMember ∨ t = .symbol .leftBracket ∨ t = .symbol .filter) :
    e.isLoose = false := by
  generalize begins : t :: taken = tokens at reads
  cases reads with
  | operand head tail =>
    obtain ⟨_, others, rfl⟩ := leading_cons head
    cases begins
    refine continuing_keeps (fun e => e.isLoose = false) ?_ tail _ rfl
      (leading_tight head opens)
    exact fun u w left e rest holds link _ => following_tight link (by omega)

private theorem operand_member (reads : Reads (.operand 40) (t :: taken) e rest)
    (starts : t.StartsMember)
    (noStar : t ≠ .symbol .star) : e.isMember := by
  generalize begins : t :: taken = tokens at reads
  cases reads with
  | operand head tail =>
    obtain ⟨_, others, rfl⟩ := leading_cons head
    cases begins
    refine continuing_keeps (fun e => e.isMember) ?_ tail _ rfl
      (leading_member head starts noStar)
    rintro u w left e rest holds link base
    refine following_member link holds ?_
    rintro rfl
    cases base

private theorem member_tight (reads : Reads (.member binding) taken e rest) (tight : 9 ≤ binding) :
    e.isLoose = false := by
  cases reads with
  | named starts operand => exact operand_tight operand tight (.inl starts)
  | memberList items =>
    obtain ⟨es, rfl⟩ := items_list items
    rfl
  | memberHash entries =>
    obtain ⟨entries, rfl⟩ := entries_hash entries
    rfl

private theorem member_kind (reads : Reads (.member 40) taken e rest)
    (noWildcard : taken.head? ≠ some (.symbol .star)) : e.isMember := by
  cases reads with
  | named starts operand => exact operand_member operand starts (by simpa using noWildcard)
  | memberList items =>
    obtain ⟨es, rfl⟩ := items_list items
    rfl
  | memberHash entries =>
    obtain ⟨entries, rfl⟩ := entries_hash entries
    rfl

end Expr

/-! ## Parts -/

open JsonQuery.Expr

/-- The expression of a part, in the role that the part gives it, is made of what fits, provided
that the one before it is. Only the continuations that begin an expression can be without one. -/
def Part.Shapes (e : Expr) : Part → Prop
  | .continuing _ left => Shaped .operand left → Shaped .operand e
  | .following left => Shaped .operand left → Shaped .operand e
  | .suffix left => left = .identity ∨ Shaped .operand left → Shaped .operand e
  | .projection binding => 9 ≤ binding → Shaped .projected e
  | _ => Shaped .operand e

private theorem shaped_before (base : left = .identity ∨ Shaped .operand left)
    (projects : role = .items ∨ role = .source) : Shaped role left := by
  obtain rfl | base := base
  · obtain rfl | rfl := projects <;> simp [Shaped, Role.fits_iff, isSlice]
  · obtain rfl | rfl := projects <;> exact shaped_stands base (by simp) (by simp) (by simp)

/-- An index or a slice, behind an expression or alone. -/
theorem shaped_subscript (base : left = .identity ∨ Shaped .operand left)
    (subscript : Shaped .subscript right) (alone : Shaped role right)
    (behind : role.Fits (.bracket left right)) : Shaped role (Rules.subscript left right) := by
  by_cases nothing : left = .identity
  · subst nothing
    exact alone
  · rw [subscript_bracket _ _ nothing, shaped_bracket]
    exact ⟨behind, base.resolve_left nothing, subscript⟩

private theorem reads_shapes (reads : Reads part taken e rest) : part.Shapes e := by
  induction reads with
  | operand _ _ first more => exact more first
  | stop => exact id
  | step _ _ _ next more => exact fun base => more (next base)
  | literal | rawString | identifier | quotedIdentifier | current | emptyCall =>
    simp [Part.Shapes, Shaped, Role.fits_iff, isSlice]
  | call _ args => exact shaped_call.mpr (shaped_list.mp args).2
  | values _ p =>
    exact shaped_eachValue.mpr ⟨shaped_before (.inl rfl) (.inr rfl), p (by decide)⟩
  | list _ _ items => exact items
  | hash _ entries => exact entries
  | group _ inner => exact inner
  | not _ operand => exact shaped_not.mpr operand
  | reference _ operand => exact shaped_reference.mpr operand
  | leadingSuffix _ suffix => exact suffix (.inl rfl)
  | followingSuffix _ suffix => exact fun base => suffix (.inr base)
  | dotValues _ p =>
    intro base
    exact shaped_eachValue.mpr ⟨shaped_before (.inr base) (.inr rfl), p (by decide)⟩
  | dot member noWildcard right =>
    intro base
    refine shaped_dot.mpr ⟨base, ?_⟩
    exact shaped_stands right (by simp) (fun _ => member_kind member noWildcard) (by simp)
  | connective joins _ right => exact fun base => (shaped_connective joins).mpr ⟨base, right⟩
  | flatten _ p =>
    intro base
    exact shaped_flatten.mpr ⟨shaped_before base (.inr rfl), p (by decide)⟩
  | filter _ _ test p =>
    intro base
    exact shaped_filter.mpr ⟨shaped_before base (.inr rfl), test, p (by decide)⟩
  | index =>
    intro base
    apply shaped_subscript base <;> simp [Shaped, Role.fits_iff, isSlice, isSubscript]
  | slice nonzero _ p =>
    intro base
    refine shaped_eachItem.mpr ⟨?_, p (by decide)⟩
    apply shaped_subscript base <;>
      simp [Shaped, Role.fits_iff, isSlice, isSubscript, nonzero]
  | each _ p =>
    intro base
    exact shaped_eachItem.mpr ⟨shaped_before base (.inl rfl), p (by decide)⟩
  | bare =>
    intro _
    simp [Shaped, Role.fits_iff, isSlice, isLoose]
  | inner opens operand e =>
    intro tight
    exact shaped_stands e (by simp) (by simp) fun _ => operand_tight operand tight (.inr opens)
  | innerDot member e =>
    intro tight
    exact shaped_stands e (by simp) (by simp) fun _ => member_tight member tight
  | named _ _ e => exact e
  | memberList _ items => exact items
  | memberHash _ entries => exact entries
  | lastItem _ item => exact shaped_list.mpr ⟨by simp, List.forall_mem_singleton.mpr item⟩
  | nextItem _ _ item others =>
    exact shaped_list.mpr ⟨by simp, List.forall_mem_cons.mpr ⟨item, (shaped_list.mp others).2⟩⟩
  | lastEntry _ _ value => exact shaped_hash.mpr ⟨by simp, List.forall_mem_singleton.mpr value⟩
  | nextEntry _ _ _ value others =>
    exact shaped_hash.mpr ⟨by simp, List.forall_mem_cons.mpr ⟨value, (shaped_hash.mp others).2⟩⟩

/-! ## Texts -/

/-- A text without tokens is blank. -/
theorem lexes_nil_iff (lexes : Lexes cs tokens) : tokens = [] ↔ ∀ c ∈ cs, isBlank c = true := by
  induction lexes with
  | nil => simp
  | blank blank _ others => simp [blank, others]
  | token spells _ _ =>
    obtain ⟨first, others, rfl, ink, -⟩ := spells_read spells
    simp [ink]

/-- Every expression of a text has the shape that the rules give it. It is the current value alone
exactly for a blank text, and otherwise each of its nodes is of a kind that fits its role. No slice
stands still, so each of them has a list of items. -/
theorem Expr.parse_shaped (parsed : Expr.parse text = .ok e) :
    (e = .identity ↔ ∀ c ∈ text.toList, isBlank c = true) ∧
      (e ≠ .identity → ∀ role node, (role, node) ∈ e.roles .whole → role.Fits node) ∧
      ∀ start stop step, .slice start stop step ∈ e.nodes →
        step ≠ some 0 ∧ ∀ items, ∃ found, sliceItems items start stop step = .arr found := by
  obtain ⟨s, lexed, read⟩ := parse_within_reads parsed
  have blank := lexes_nil_iff (text_lexes lexed)
  obtain ⟨none, rfl⟩ | reads := read
  · exact ⟨iff_of_true rfl (blank.mp none), fun something => absurd rfl something, by simp⟩
  · have shaped : Shaped .operand e := reads_shapes reads
    have something : e ≠ .identity := fun nothing => by
      simpa using (shaped_fits shaped).identity nothing
    refine ⟨iff_of_false something fun all => ?_, fun _ => ?_, fun start stop step slice => ?_⟩
    · obtain ⟨t, others, tokens⟩ := reads_cons reads
      rw [blank.mpr all] at tokens
      cases tokens
    · exact shaped_stands shaped (by simp) (by simp) (by simp)
    · rw [← roles_nodes .operand e, List.mem_map] at slice
      obtain ⟨⟨role, _⟩, among, rfl⟩ := slice
      have moves := (shaped role _ among).step _ _ _ rfl
      exact ⟨moves, fun items => ⟨_, Slice.slice_items_walk moves items start stop⟩⟩

theorem Expr.parse_shaped_slice :
    Expr.parse "a[0:1].*" = .ok (.eachItem (.bracket (.field "a") (.slice (some 0) (some 1) none))
        (.eachValue .identity .identity)) ∧
      Role.items.Fits (.bracket (.field "a") (.slice (some 0) (some 1) none)) ∧
      Role.projected.Fits (.eachValue .identity .identity) ∧
      ∀ items, ∃ found, sliceItems items (some 0) (some 1) none = .arr found := by
  have parsed : Expr.parse "a[0:1].*" =
      .ok (.eachItem (.bracket (.field "a") (.slice (some 0) (some 1) none))
        (.eachValue .identity .identity)) := by cbv
  obtain ⟨-, fits, slices⟩ := Expr.parse_shaped parsed
  refine ⟨parsed, fits (by simp) _ _ ?_, fits (by simp) _ _ ?_, (slices _ _ _ ?_).2⟩ <;> simp

end JsonQuery
