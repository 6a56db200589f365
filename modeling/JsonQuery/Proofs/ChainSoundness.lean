import JsonQuery.Proofs.ChainGrammar
import JsonQuery.Proofs.Projections

/-! Whatever the parser reads is a chain of links that follow each other as the parser takes them.
Where the links of an expression stay inside its projections, they follow each other as absorbed
links do. -/
namespace JsonQuery

open JsonQuery.Expr

/-- What may stand behind an expression. Behind a projection no link may be left over if links have
to be absorbed. -/
def Chain.behind (m : Manner) (e : Expr) (chain : Chain) : Chain :=
  if m.absorbs && e.endsInProjection then .shut else chain

/-- The chain belongs to an operand that is read with at least its binding power. -/
def Chain.Settled (binding : Nat) : Chain → Prop
  | .plain => True
  | .within inner => inner ≤ binding
  | _ => False

/-- How the reading of an operand starts. -/
inductive Entry where
  /-- The operand stands on its own. -/
  | start
  /-- Its first token is applied to the elements of a projection. -/
  | tail (binding : Nat)
  /-- It stands behind a dot. -/
  | member (chain : Chain)

namespace Entry

/-- What the operand's own links follow on. -/
def base : Entry → Chain
  | .start => .plain
  | .tail binding => .within binding
  | .member chain => chain.entered

def Admits : Entry → Token → Prop
  | .start, _ => True
  | .tail _, t => t = .symbol .leftBracket ∨ t = .symbol .filter
  | .member chain, t => t.StartsMember ∧ chain.Absorbs .name ∧ (t = .symbol .star → chain.Fresh)

/-- What the operand's tokens amount to. -/
def Sentence (m : Manner) : Entry → List Token → Prop
  | .start, w => JsonQuery.Sentence m .operand w
  | .tail binding, w => JsonQuery.Sentence m (.chain (.fresh binding)) w
  | .member chain, w => JsonQuery.Sentence m (.chain chain) (.symbol .dot :: w)

end Entry

/-- The tokens of an operand may be followed by the tokens of a chain that goes on behind it. -/
def Enters (m : Manner) (entry : Entry) (taken : List Token) (e : Expr) (rest : List Token) : Prop :=
  (∀ t, taken.head? = some t → entry.Admits t) →
    ∀ more, more <+: rest → Sentence m (.chain (entry.base.behind m e)) more →
      entry.Sentence m (taken ++ more)

/-- What the tokens of each part amount to, given the tokens of a chain that goes on behind it. -/
def Part.Chained (m : Manner) : Part → List Token → Expr → List Token → Prop
  | .operand binding, taken, e, rest =>
    ∀ entry, entry.base.Settled binding → Enters m entry taken e rest
  | .continuing binding left, taken, e, rest =>
    ∀ chain : Chain, chain.Settled binding → ∀ more, more <+: rest →
      Sentence m (.chain (chain.behind m e)) more →
        Sentence m (.chain (chain.behind m left)) (taken ++ more)
  | .leading, taken, e, rest => ∀ entry, Enters m entry taken e rest
  | .following left, taken, e, rest =>
    ∀ binding, ∀ chain : Chain, chain.Settled binding →
      (∀ t, taken.head? = some t → binding < t.bindingPower) → ∀ more, more <+: rest →
        Sentence m (.chain (chain.behind m e)) more →
          Sentence m (.chain (chain.behind m left)) (taken ++ more)
  | .suffix left, taken, e, rest =>
    ∃ link first others, taken = first ++ others ∧ link.Leads ∧ Sentence m (.link link) first ∧
      (m.absorbs → link ≠ .flatten → left.endsInProjection = false) ∧
      ∀ before exit : Chain, ¬ exit.Fresh → (link = .index → exit = before.entered) →
        ∀ more, more <+: rest → Sentence m (.chain (exit.behind m e)) more →
          Sentence m (.chain (before.after link)) (others ++ more)
  | .projection binding, taken, _, rest =>
    ∀ more, more <+: rest → Sentence m (.chain .shut) more →
      Sentence m (.chain (.fresh binding)) (taken ++ more)
  | .member binding, taken, e, rest =>
    ∀ chain : Chain, ∀ more, chain.Absorbs .name → chain.entered.Settled binding →
      (taken.head? = some (.symbol .star) → chain.Fresh) → more <+: rest →
        Sentence m (.chain (chain.selected.behind m e)) more →
          Sentence m (.chain chain) (.symbol .dot :: (taken ++ more))
  | .items close, taken, _, _ => Sentence m (.items close) taken
  | .entries, taken, _, _ => Sentence m .entries taken

section

variable {m : Manner} {e : Expr} {chain : Chain} {entry : Entry}

private theorem behind_plain (ends : e.endsInProjection = false) (chain : Chain) :
    chain.behind m e = chain := by
  simp [Chain.behind, ends]

private theorem behind_absorbed (absorbed : m.absorbs → e.endsInProjection = false)
    (chain : Chain) :
    chain.behind m e = chain := by
  cases strict : m.absorbs with
  | false => simp [Chain.behind, strict]
  | true => exact behind_plain (absorbed strict) chain

theorem entered_not_fresh (chain : Chain) : ¬ chain.entered.Fresh := by
  cases chain <;> exact id

private theorem settled_not_fresh (settled : chain.Settled binding) : ¬ chain.Fresh := by
  cases chain <;> first | exact id | exact settled.elim

theorem settled_entered (settled : chain.Settled binding) : chain.entered = chain := by
  cases chain <;> first | rfl | exact settled.elim

theorem settled_selected (settled : chain.Settled binding) : chain.selected = chain := by
  cases chain <;> first | rfl | exact settled.elim

theorem settled_values (settled : chain.Settled binding) : chain.valuesBinding = 40 := by
  cases chain <;> first | rfl | exact settled.elim

theorem settled_mono (settled : chain.Settled binding) (le : binding ≤ limit) :
    chain.Settled limit := by
  cases chain with
  | plain => trivial
  | within inner => exact Nat.le_trans settled le
  | _ => exact settled.elim

/-- An operand takes in the links that hold tighter than it is read. -/
theorem settled_absorbs (settled : chain.Settled binding) (holds : binding < link.power) :
    chain.Absorbs link := by
  cases chain with
  | plain => cases link <;> trivial
  | within inner =>
    cases link with
    | flatten => trivial
    | _ => exact Nat.lt_of_le_of_lt settled holds
  | _ => exact settled.elim

/-- Whatever may stand behind a projection could also stand behind a closed multi-select. -/
theorem shut_of_behind (ends : e.endsInProjection) (old : ¬ chain.Fresh)
    (chained : Sentence m (.chain (chain.behind m e)) w) : Sentence m (.chain .shut) w := by
  cases strict : m.absorbs with
  | true => simpa [Chain.behind, strict, ends] using chained
  | false =>
    rw [behind_absorbed (by simp [strict])] at chained
    exact chain_relaxed strict chained _ _ rfl fun _ fresh => (old fresh).elim

private theorem chain_of_behind (chained : Sentence m (.chain (chain.behind m e)) w) :
    Sentence m (.chain chain) w := by
  unfold Chain.behind at chained
  split at chained
  · exact chain_of_shut chained chain
  · exact chained

/-- Most tokens begin an operand only where it stands on its own. -/
theorem enters_start (begins : taken = t :: others) (noMember : ¬ t.StartsMember)
    (noBracket : t ≠ .symbol .leftBracket) (noFilter : t ≠ .symbol .filter)
    (start : ∀ more, more <+: rest → Sentence m (.chain (Chain.plain.behind m e)) more →
      Sentence m .operand (taken ++ more)) : Enters m entry taken e rest := by
  subst begins
  intro admits
  cases entry with
  | start => exact start
  | tail binding =>
    obtain bracket | filter := admits t rfl
    · exact absurd bracket noBracket
    · exact absurd filter noFilter
  | member chain => exact absurd (admits t rfl).1 noMember

/-- A name begins an operand or is linked by a dot. -/
theorem enters_name (name : Sentence m .name taken) (plain : e.endsInProjection = false) :
    Enters m entry taken e rest := by
  obtain ⟨t, others, rfl, starts, noStar⟩ := name_cons name
  intro admits more _ chained
  rw [behind_plain plain] at chained
  cases entry with
  | start => exact .begun (.named name) chained
  | tail binding => obtain rfl | rfl := admits t rfl <;> cases starts
  | member chain =>
    obtain ⟨-, absorbs, -⟩ := admits t rfl
    have allowed : m.Allows chain .name := ⟨nofun, fun _ => absorbs⟩
    exact .linked allowed (.linkName name) chained

/-- A star begins an operand, and directly behind a projection also one that a dot links. -/
theorem enters_values (tail : (Part.projection 20).Chained m taken p rest) :
    Enters m entry (.symbol .star :: taken) (.eachValue .identity p) rest := by
  intro admits more within chained
  cases entry with
  | start => exact .spread (tail more within (shut_of_behind rfl id chained))
  | tail binding => obtain bracket | filter := admits _ rfl <;> simp_all
  | member chain =>
    have shut := shut_of_behind rfl (entered_not_fresh chain) chained
    obtain ⟨-, -, fresh⟩ := admits _ rfl
    cases chain with
    | fresh binding =>
      have allowed : m.Allows (.fresh binding) .values := ⟨nofun, fun _ => trivial⟩
      exact .linked allowed .linkValues (tail more within shut)
    | _ => exact (fresh rfl).elim

/-- A list begins an operand, or stands directly behind a projection. -/
theorem enters_list (lists : m.lists) (items : Sentence m (.items .rightBracket) taken)
    (noWildcard : taken.head? = some (.symbol .star) →
      taken.tail.head? ≠ some (.symbol .rightBracket)) (plain : e.endsInProjection = false) :
    Enters m entry (.symbol .leftBracket :: taken) e rest := by
  intro admits more _ chained
  rw [behind_plain plain] at chained
  cases entry with
  | start => exact .begun (.list items noWildcard) chained
  | tail binding =>
    have allowed : m.Allows (.fresh binding) .list :=
      ⟨fun _ => ⟨lists, trivial⟩, fun _ => trivial⟩
    exact .linked allowed (.linkList items noWildcard) chained
  | member chain => cases (admits _ rfl).1

/-- The links that an operand may begin with go on from any chain that takes them in. -/
theorem suffix_linked (leads : Link.Leads link) (absorbs : m.absorbs → chain.Absorbs link)
    (first : Sentence m (.link link) a) (tail : Sentence m (.chain (chain.after link)) w) :
    Sentence m (.chain chain) (a ++ w) :=
  .linked ⟨fun list => by subst list; exact leads.elim, absorbs⟩ first tail

private theorem enters_suffix (suffix : (Part.suffix .identity).Chained m taken e rest) :
    Enters m entry taken e rest := by
  obtain ⟨link, first, others, rfl, leads, linked, -, tail⟩ := suffix
  intro admits more within chained
  rw [List.append_assoc]
  cases entry with
  | start => exact .led leads linked (tail .plain .plain id (fun _ => rfl) more within chained)
  | tail binding =>
    apply suffix_linked leads (fun _ => ?_) linked
      (tail (.fresh binding) (.within binding) id (fun _ => rfl) more within chained)
    cases link <;> trivial
  | member chain =>
    cases linked <;> first | exact leads.elim | cases (admits _ rfl).1

private theorem following_suffix_chained (suffix : (Part.suffix left).Chained m taken e rest) :
    (Part.following left).Chained m taken e rest := by
  obtain ⟨link, first, others, rfl, leads, linked, absorbed, tail⟩ := suffix
  intro binding chain settled holds more within chained
  have same : link ≠ .flatten → chain.behind m left = chain :=
    fun other => behind_absorbed (fun strict => absorbed strict other) chain
  rw [List.append_assoc]
  apply suffix_linked leads (fun strict => ?_) linked
  · apply tail _ chain (settled_not_fresh settled) (fun index => ?_) more within chained
    rw [same (by simp [index]), settled_entered settled]
  · by_cases flatten : link = .flatten
    · subst flatten
      trivial
    · rw [same flatten]
      obtain ⟨t, others, rfl, power, -⟩ := link_cons linked
      exact settled_absorbs settled (power ▸ holds t rfl)

private theorem absorbs_select (absorbs : chain.Absorbs .name) : chain.Absorbs .select := by
  cases chain <;> exact absorbs

/-- A name leaves at least as much open as a multi-select does. -/
theorem chain_of_selected (chained : Sentence m (.chain (chain.selected.behind m e)) w) :
    Sentence m (.chain (chain.entered.behind m e)) w := by
  cases chain with
  | fresh binding =>
    have shut : Sentence m (.chain .shut) w := by simpa [Chain.behind, Chain.selected] using chained
    exact chain_of_shut shut _
  | _ => exact chained

/-- An operand may end with its own tokens. -/
theorem operand_sentence (chained : (Part.operand binding).Chained m taken e rest) :
    Sentence m .operand taken := by
  have sentence := chained .start trivial (fun _ _ => trivial) [] List.nil_prefix .done
  simpa [Entry.Sentence] using sentence

/-- A projection takes what stands behind it for its elements. -/
theorem projection_chained (first : Sentence m (.link link) a) (leads : link.Leads)
    (after : ∀ before : Chain, before.after link = .fresh binding)
    (plain : m.absorbs → link ≠ .flatten → left.endsInProjection = false)
    (tail : (Part.projection binding).Chained m taken p rest) (projects : e.endsInProjection) :
    (Part.suffix left).Chained m (a ++ taken) e rest := by
  refine ⟨link, a, taken, rfl, leads, first, plain, ?_⟩
  intro before exit old _ more within chained
  rw [after before]
  exact tail more within (shut_of_behind projects old chained)

end

/-- Whatever is read is a chain in any manner that takes lists behind projections, if the links stay
inside wherever the manner wants them absorbed. -/
theorem reads_chained {m : Manner} (lists : m.lists) (groups : m.groups)
    (reads : Reads part taken e rest) (inside : m.absorbs → e.ChainsInside) :
    part.Chained m taken e rest := by
  induction reads with
  | operand head tail first others =>
    intro entry settled admits more within chained
    have inner := fun strict => base_inside tail (inside strict)
    rw [List.append_assoc]
    apply first inner entry (fun t begins => admits t (by simp [begins]))
    · exact (List.prefix_append_right_inj _).mpr within
    · exact others inside _ settled more within chained
  | stop => exact fun chain settled more within chained => chained
  | step holds link tail next others =>
    intro chain settled more within chained
    have inner := fun strict => base_inside tail (inside strict)
    have linked := next inner _ chain settled (fun t begins => by cases begins; exact holds) _
      ((List.prefix_append_right_inj _).mpr within) (others inside chain settled more within chained)
    simpa using linked
  | literal =>
    exact fun entry => enters_start rfl id nofun nofun fun more _ chained =>
      .begun .literal (chain_of_behind chained)
  | rawString =>
    exact fun entry => enters_start rfl id nofun nofun fun more _ chained =>
      .begun .rawString (chain_of_behind chained)
  | current =>
    exact fun entry => enters_start rfl id nofun nofun fun more _ chained =>
      .begun .current (chain_of_behind chained)
  | identifier => exact fun entry => enters_name .identifier rfl
  | quotedIdentifier => exact fun entry => enters_name .quotedIdentifier rfl
  | emptyCall => exact fun entry => enters_name .emptyCall rfl
  | call args items =>
    exact fun entry => enters_name (.call (items (by simpa using inside))) rfl
  | values tail p =>
    exact fun entry => enters_values (p fun strict => (inside_eachValue.mp (inside strict)).2.2)
  | list items noWildcard chained =>
    obtain ⟨es, rfl⟩ := items_list items
    exact fun entry => enters_list lists (chained inside) noWildcard rfl
  | hash entries chained =>
    exact fun entry => enters_start rfl id nofun nofun fun more _ tail =>
      .begun (.hash (chained inside)) (chain_of_behind tail)
  | group inner chained =>
    refine fun entry => enters_start rfl id nofun nofun fun more _ tail => ?_
    exact .begun (.group groups (operand_sentence (chained inside))) (chain_of_behind tail)
  | not operand chained =>
    refine fun entry => enters_start rfl id nofun nofun fun more within tail => ?_
    have inner := fun strict => inside_not.mp (inside strict)
    exact .negated (chained inner .start trivial (fun _ _ => trivial) more within tail)
  | reference operand chained =>
    refine fun entry => enters_start rfl id nofun nofun fun more within tail => ?_
    have inner := fun strict => inside_reference.mp (inside strict)
    have below : Below 9 more := below_mono (by decide) (below_initial within (operand_below operand))
    exact .referred (chained inner .start trivial (fun _ _ => trivial) more within
      (chain_restart tail below _))
  | leadingSuffix suffix chained => exact fun entry => enters_suffix (chained inside)
  | followingSuffix suffix chained => exact following_suffix_chained (chained inside)
  | dotValues tail p =>
    intro binding chain settled holds more within chained
    have inner := fun strict => inside_eachValue.mp (inside strict)
    have shut := shut_of_behind rfl (settled_not_fresh settled) chained
    have after := p (fun strict => (inner strict).2.2) more within shut
    rw [behind_absorbed fun strict => (inner strict).1]
    have allowed : m.Allows chain .values :=
      ⟨nofun, fun _ => settled_absorbs settled (holds _ rfl)⟩
    apply Sentence.linked (a := [_, _]) allowed .linkValues
    rw [Chain.after, settled_values settled]
    exact after
  | dot member noWildcard chained =>
    intro binding chain settled holds more within tail
    have inner := fun strict => inside_dot.mp (inside strict)
    rw [behind_absorbed fun strict => (inner strict).1]
    apply chained (fun strict => (inner strict).2.2) chain more
    · exact settled_absorbs settled (holds _ rfl)
    · rw [settled_entered settled]
      exact settled_mono settled (Nat.le_of_lt (holds _ rfl))
    · exact fun star => absurd star noWildcard
    · exact within
    · rw [settled_selected settled]
      exact tail
  | connective joins operand chained =>
    intro binding chain settled holds more within tail
    have inner := fun strict => (connective_inside joins _ _).mp (inside strict)
    have some := Option.isSome_of_eq_some joins
    have below := below_mono (connective_power some).2.1
      (below_initial within (operand_below operand))
    exact .joined some (chained (fun strict => (inner strict).2) .start trivial
      (fun _ _ => trivial) more within (chain_restart tail below _))
  | flatten tail p =>
    have inner := fun strict => inside_flatten.mp (inside strict)
    exact projection_chained .linkFlatten trivial (fun _ => rfl)
      (fun _ flatten => absurd rfl flatten) (p fun strict => (inner strict).2) rfl
  | filter predicate tail operand p =>
    have inner := fun strict => inside_filter.mp (inside strict)
    have test := operand_sentence (operand fun strict => (inner strict).2.2.1)
    rw [List.append_cons, ← List.cons_append]
    exact projection_chained (.linkFilter test) trivial (fun _ => rfl)
      (fun strict _ => (inner strict).1) (p fun strict => (inner strict).2.2.2) rfl
  | index =>
    refine ⟨.index, _, [], (List.append_nil _).symm, trivial, .linkIndex, ?_, ?_⟩
    · exact fun strict _ => (subscript_inside (inside strict)).2
    · intro before exit _ same more _ chained
      rw [behind_plain (subscript_ends rfl), same rfl] at chained
      exact chained
  | slice nonzero tail p =>
    have inner := fun strict => inside_eachItem.mp (inside strict)
    have left := fun strict => (subscript_inside (inner strict).2.1).2
    rw [List.append_cons, ← List.cons_append]
    exact projection_chained (.linkSlice nonzero) trivial (fun _ => rfl)
      (fun strict _ => left strict) (p fun strict => (inner strict).2.2) rfl
  | each tail p =>
    have inner := fun strict => inside_eachItem.mp (inside strict)
    exact projection_chained .linkEach trivial (fun _ => rfl)
      (fun strict _ => (inner strict).1) (p fun strict => (inner strict).2.2) rfl
  | bare below => exact fun more within chained => chain_of_shut chained _
  | inner opens operand chained =>
    intro more within tail
    apply chained inside (.tail _) (Nat.le_refl _) (fun t begins => ?_) more within
    · exact chain_of_shut tail _
    · cases begins
      exact opens
  | innerDot member chained =>
    intro more within tail
    exact chained inside (.fresh _) more trivial (Nat.le_refl _) (fun _ => trivial) within
      (chain_of_shut tail _)
  | named starts operand chained =>
    intro chain more absorbs settled star within tail
    apply chained inside (.member chain) settled (fun t begins => ?_) more within
    · exact chain_of_selected tail
    · cases begins
      exact ⟨starts, absorbs, fun same => star (by rw [same]; rfl)⟩
  | memberList items chained =>
    intro chain more absorbs settled star within tail
    obtain ⟨es, rfl⟩ := items_list items
    have allowed : m.Allows chain .select := ⟨nofun, fun _ => absorbs_select absorbs⟩
    rw [behind_plain rfl] at tail
    exact .linked allowed (.linkSelect (chained inside)) tail
  | memberHash entries chained =>
    intro chain more absorbs settled star within tail
    obtain ⟨es, rfl⟩ := entries_hash entries
    have allowed : m.Allows chain .select := ⟨nofun, fun _ => absorbs_select absorbs⟩
    rw [behind_plain rfl] at tail
    exact .linked allowed (.linkHash (chained inside)) tail
  | lastItem item chained =>
    exact .lastItem (operand_sentence (chained fun strict => (inside_list_cons.mp (inside strict)).1))
  | nextItem item others first more =>
    have inner := fun strict => inside_list_cons.mp (inside strict)
    exact .nextItem (operand_sentence (first fun strict => (inner strict).1))
      (more fun strict => (inner strict).2)
  | lastEntry key value chained =>
    have inner := fun strict => inside_hash_cons.mp (inside strict)
    exact .lastEntry (Option.isSome_of_eq_some key)
      (operand_sentence (chained fun strict => (inner strict).1))
  | nextEntry key value others first more =>
    have inner := fun strict => inside_hash_cons.mp (inside strict)
    exact .nextEntry (Option.isSome_of_eq_some key)
      (operand_sentence (first fun strict => (inner strict).1)) (more fun strict => (inner strict).2)

end JsonQuery
