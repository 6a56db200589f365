import JsonQuery.Proofs.ChainSoundness

/-! Whatever is a chain of links can be read. Each part takes what its binding power allows from the
front of the tokens, and what it leaves is again a chain, so that the part around it can go on. Where
links are absorbed, nothing is left over behind a projection that could be applied to it. -/
namespace JsonQuery

open JsonQuery.Expr

/-- How the tokens behind an expression go on. Behind a projection no link follows that would be
applied to its elements; otherwise the chain stands where the expression has brought it. -/
structure Resumes (m : Manner) (chain : Chain) (e : Expr) (w rest : List Token) : Prop where
  next : ∃ next : Chain, Sentence m (.chain next) w ∧
    (next.Fresh → Below projectionStop (w ++ rest)) ∧
      (m.absorbs → e.endsInProjection = false → next = chain)
  ended : m.absorbs → e.endsInProjection → Below projectionStop (w ++ rest)

/-- The part can be read from the front of these tokens, and the chain goes on behind it. -/
def Front (m : Manner) (part : Part) (chain : Chain) (w rest : List Token) : Prop :=
  ∃ taken more e, w = taken ++ more ∧ Reads part taken e (more ++ rest) ∧
    Resumes m chain e more rest ∧ (m.absorbs → part.base.ChainsInside → e.ChainsInside)

/-- The part can be read from the front of these tokens, and with it the projection whose elements
it is applied to is complete. -/
def Completes (m : Manner) (part : Part) (w rest : List Token) : Prop :=
  ∃ taken more p, w = taken ++ more ∧ Reads part taken p (more ++ rest) ∧
    (∀ chain e, e.endsInProjection → Resumes m chain e more rest) ∧
      (m.absorbs → p.ChainsInside)

/-- All that is read from sentences made of these tokens. -/
structure Readable (m : Manner) (w : List Token) : Prop where
  operand : ∀ binding rest, Sentence m .operand w → Below 1 rest →
    Front m (.operand binding) .plain w rest
  chain : ∀ binding rest chain left, Resumes m chain left w rest →
    (m.absorbs → chain.Settled binding) → Below 1 rest →
      Front m (.continuing binding left) chain w rest
  tail : ∀ binding rest next, Sentence m (.chain next) w → (m.absorbs → next = .fresh binding) →
    Below 1 rest → Completes m (.projection binding) w rest
  items : ∀ close rest, Sentence m (.items close) w → (Token.symbol close).bindingPower = 0 →
    ∃ es, Reads (.items close) w (.list es) rest ∧ (m.absorbs → (Expr.list es).ChainsInside)
  entries : ∀ rest, Sentence m .entries w →
    ∃ es, Reads .entries w (.hash es) rest ∧ (m.absorbs → (Expr.hash es).ChainsInside)

section

variable {m : Manner} {before chain : Chain} {e left : Expr} {w v rest : List Token}

private theorem selected_not_fresh (chain : Chain) : ¬ chain.selected.Fresh := by
  cases chain <;> exact id

/-- Behind what does not end in a projection, the chain itself is all that matters. -/
theorem resumes_plain (ends : m.absorbs → e.endsInProjection = false)
    (chained : Sentence m (.chain next) w) (old : ¬ next.Fresh) (same : m.absorbs → next = chain) :
    Resumes m chain e w rest where
  next := ⟨next, chained, fun fresh => (old fresh).elim, fun strict _ => same strict⟩
  ended := fun strict projects => by
    rw [ends strict] at projects
    cases projects

private theorem resumes_same (resumes : Resumes m chain e w rest)
    (same : other.endsInProjection = e.endsInProjection) : Resumes m chain other w rest where
  next := by
    rw [same]
    exact resumes.next
  ended := by
    rw [same]
    exact resumes.ended

/-- Tokens that begin no link of a projection's elements may stand behind the projection. -/
theorem resumes_below (chained : Sentence m (.chain next) w)
    (below : Below projectionStop (w ++ rest)) (projects : e.endsInProjection) :
    Resumes m chain e w rest where
  next := by
    refine ⟨next, chained, fun _ => below, fun _ ends => ?_⟩
    rw [projects] at ends
    cases ends
  ended := fun _ _ => below

private theorem below_append (first : w = t :: others) (below : t.bindingPower < power) :
    Below power (w ++ rest) := by
  subst first
  intro u begins
  cases begins
  exact below

/-- A chain that no link continues, save those that take projections whole. -/
theorem chain_below (chained : Sentence m (.chain chain) w) (below : Below 1 rest)
    (links : ∀ link, m.Allows chain link → ∀ first others, w = first :: others →
      first.bindingPower = link.power → link.power < projectionStop) :
    Below projectionStop (w ++ rest) := by
  cases chained with
  | done => exact below_mono (by decide) below
  | joined joins operand =>
    exact below_append rfl (Nat.lt_trans (connective_power joins).2.1 (by decide))
  | linked allowed first tail =>
    obtain ⟨t, others, rfl, power, -⟩ := link_cons first
    exact below_append rfl (power ▸ links _ allowed t _ rfl power)

private theorem shut_below (strict : m.absorbs) (chained : Sentence m (.chain .shut) w)
    (below : Below 1 rest) : Below projectionStop (w ++ rest) := by
  apply chain_below chained below
  intro link allowed _ _ _ _
  have absorbed := allowed.2 strict
  cases link <;> first | decide | exact absorbed.elim

/-- An operand of a projection takes all the links that are absorbed there. -/
theorem within_below (strict : m.absorbs) (chained : Sentence m (.chain (.within binding)) w)
    (below : Below 1 rest) (read : Below (binding + 1) (w ++ rest)) :
    Below projectionStop (w ++ rest) := by
  apply chain_below chained below
  intro link allowed t others shape power
  have absorbed := allowed.2 strict
  subst shape
  have held := read t rfl
  cases link with
  | flatten => decide
  | _ =>
    have holds : binding < Link.power _ := absorbed
    omega

private theorem chain_no_call (chained : Sentence m (.chain chain) w) (below : Below 1 rest) :
    (w ++ rest).head? ≠ some (.symbol .leftParen) := by
  cases w with
  | nil =>
    exact fun call => absurd (below _ call) (by decide)
  | cons t others =>
    intro call
    cases call
    exact (chain_begins chained).2 rfl

/-- An operand is its beginning with what continues it. -/
theorem front_operand (front : Front m .leading chain w rest) (below : Below 1 rest)
    (settled : m.absorbs → chain.Settled binding)
    (readable : ∀ v, v.length < w.length → Readable m v) :
    Front m (.operand binding) chain w rest := by
  obtain ⟨taken, more, left, rfl, head, resumes, inside⟩ := front
  obtain ⟨t, others, rfl⟩ := leading_cons head
  have shorter : more.length < ((t :: others) ++ more).length := by simp +arith
  obtain ⟨middle, last, e, rfl, tail, done, kept⟩ :=
    (readable more shorter).chain binding rest chain left resumes settled below
  refine ⟨(t :: others) ++ middle, last, e, by simp, ?_, done, ?_⟩
  · rw [List.append_assoc] at head
    exact .operand head tail
  · exact fun strict nothing => kept strict (inside strict nothing)

/-- A continuation goes on with what continues it. -/
theorem front_continuing (front : Front m (.following left) chain w rest) (begins : w = t :: others)
    (holds : binding < t.bindingPower) (below : Below 1 rest)
    (settled : m.absorbs → chain.Settled binding)
    (readable : ∀ v, v.length < w.length → Readable m v) :
    Front m (.continuing binding left) chain w rest := by
  obtain ⟨taken, more, next, rfl, link, resumes, inside⟩ := front
  obtain ⟨u, taken, rfl⟩ := following_cons link
  cases begins
  have shorter : more.length < ((t :: taken) ++ more).length := by simp +arith
  obtain ⟨middle, last, e, rfl, tail, done, kept⟩ :=
    (readable more shorter).chain binding rest chain next resumes settled below
  refine ⟨t :: (taken ++ middle), last, e, by simp, ?_, done, ?_⟩
  · rw [List.append_assoc] at link
    exact .step holds link tail
  · exact fun strict before => kept strict (inside strict before)

/-- An operand that nothing continues takes all of its tokens. -/
theorem operand_whole (readable : Readable m w) (operand : Sentence m .operand w)
    (below : Below 1 rest) :
    ∃ e, Reads (.operand 0) w e rest ∧ (m.absorbs → e.ChainsInside) := by
  obtain ⟨taken, more, e, rfl, reads, resumes, inside⟩ := readable.operand 0 rest operand below
  obtain ⟨next, chained, -⟩ := resumes.next
  cases more with
  | nil => exact ⟨e, by simpa using reads, fun strict => inside strict inside_identity⟩
  | cons t more =>
    have held := operand_below reads t rfl
    have power := (chain_begins chained).1
    omega

/-- An operand of a projection takes all that is applied to the elements. -/
theorem completes_operand (front : Front m (.operand binding) (.within binding) w rest)
    (below : Below 1 rest) : Completes m (.operand binding) w rest := by
  obtain ⟨taken, more, p, rfl, reads, resumes, inside⟩ := front
  refine ⟨taken, more, p, rfl, reads, fun chain e projects => ?_, fun strict => ?_⟩
  · obtain ⟨next, chained, fresh, same⟩ := resumes.next
    refine ⟨⟨next, chained, fresh, fun _ ends => ?_⟩, fun strict _ => ?_⟩
    · rw [projects] at ends
      cases ends
    · cases ends : p.endsInProjection with
      | true => exact resumes.ended strict ends
      | false =>
        rw [same strict ends] at chained
        exact within_below strict chained below (operand_below reads)
  · exact inside strict inside_identity

private theorem completes_inner (completes : Completes m (.operand binding) (t :: w) rest)
    (opens : t = .symbol .leftBracket ∨ t = .symbol .filter) :
    Completes m (.projection binding) (t :: w) rest := by
  obtain ⟨taken, more, p, shape, reads, resumes, inside⟩ := completes
  obtain ⟨u, taken, rfl⟩ := reads_cons reads
  cases shape
  exact ⟨_, more, p, rfl, .inner opens reads, resumes, inside⟩

private theorem completes_named (completes : Completes m (.operand binding) (t :: w) rest)
    (starts : t.StartsMember) : Completes m (.member binding) (t :: w) rest := by
  obtain ⟨taken, more, p, shape, reads, resumes, inside⟩ := completes
  obtain ⟨u, taken, rfl⟩ := reads_cons reads
  cases shape
  exact ⟨_, more, p, rfl, .named starts reads, resumes, inside⟩

private theorem completes_dot (completes : Completes m (.member binding) w rest) :
    Completes m (.projection binding) (.symbol .dot :: w) rest := by
  obtain ⟨taken, more, p, rfl, reads, resumes, inside⟩ := completes
  exact ⟨_ :: taken, more, p, rfl, .innerDot reads, resumes, inside⟩

private theorem completes_bare (chained : Sentence m (.chain chain) w)
    (below : Below projectionStop (w ++ rest)) : Completes m (.projection binding) w rest :=
  ⟨[], w, .identity, rfl, .bare below, fun _ _ => resumes_below chained below,
    fun _ => inside_identity⟩

/-- A name begins an operand of its own. -/
theorem name_reads (name : Sentence m .name a) (noCall : rest.head? ≠ some (.symbol .leftParen))
    (readable : ∀ v, v.length < a.length → Readable m v) :
    ∃ e, Reads .leading a e rest ∧ e.endsInProjection = false ∧
      (m.absorbs → e.ChainsInside) := by
  cases name with
  | identifier => exact ⟨_, .identifier, rfl, fun _ => inside_leaf rfl rfl⟩
  | quotedIdentifier => exact ⟨_, .quotedIdentifier noCall, rfl, fun _ => inside_leaf rfl rfl⟩
  | emptyCall => exact ⟨_, .emptyCall, rfl, fun _ => inside_leaf rfl rfl⟩
  | call args =>
    obtain ⟨es, reads, inside⟩ := (readable _ (by simp +arith)).items .rightParen rest args rfl
    exact ⟨_, .call reads, rfl, fun strict => inside_call.mpr (inside strict)⟩

/-- The other operands that are read as a whole. -/
theorem atom_reads (ungrouped : m.absorbs → m.groups = false) (atom : Sentence m .atom a)
    (noCall : rest.head? ≠ some (.symbol .leftParen))
    (readable : ∀ v, v.length < a.length → Readable m v) :
    ∃ e, Reads .leading a e rest ∧ (m.absorbs → e.endsInProjection = false ∧ e.ChainsInside) := by
  cases atom with
  | literal => exact ⟨_, .literal, fun _ => ⟨rfl, inside_leaf rfl rfl⟩⟩
  | rawString => exact ⟨_, .rawString, fun _ => ⟨rfl, inside_leaf rfl rfl⟩⟩
  | current => exact ⟨_, .current, fun _ => ⟨rfl, inside_leaf rfl rfl⟩⟩
  | named name =>
    obtain ⟨e, reads, ends, inside⟩ := name_reads name noCall readable
    exact ⟨e, reads, fun strict => ⟨ends, inside strict⟩⟩
  | list items noWildcard =>
    obtain ⟨es, reads, inside⟩ := (readable _ (by simp)).items .rightBracket rest items rfl
    exact ⟨_, .list reads noWildcard, fun strict => ⟨rfl, inside strict⟩⟩
  | hash entries =>
    obtain ⟨es, reads, inside⟩ := (readable _ (by simp)).entries rest entries
    exact ⟨_, .hash reads, fun strict => ⟨rfl, inside strict⟩⟩
  | group grouping inner =>
    have below : Below 1 (.symbol .rightParen :: rest) := fun t begins => by cases begins; decide
    obtain ⟨e, reads, inside⟩ := operand_whole (readable _ (by simp +arith)) inner below
    refine ⟨e, .group reads, fun strict => ?_⟩
    rw [ungrouped strict] at grouping
    cases grouping

/-- A projection is read with what is applied to its elements. -/
theorem front_projection (completes : Completes m (.projection binding) v rest)
    (projection : ∀ taken more p, Reads (.projection binding) taken p (more ++ rest) →
      (m.absorbs → p.ChainsInside) → ∃ e, Reads part (a ++ taken) e (more ++ rest) ∧
        e.endsInProjection ∧ (m.absorbs → part.base.ChainsInside → e.ChainsInside)) :
    Front m part chain (a ++ v) rest := by
  obtain ⟨taken, more, p, rfl, reads, resumes, inner⟩ := completes
  obtain ⟨e, reads, projects, inside⟩ := projection taken more p reads inner
  exact ⟨a ++ taken, more, e, by simp, reads, resumes chain e projects, inside⟩

private theorem inside_subscript (ends : left.endsInProjection = false) (before : left.ChainsInside)
    (after : Expr.ChainsInside right) : (Rules.subscript left right).ChainsInside := by
  by_cases nothing : left = .identity
  · subst nothing
    exact after
  · rw [subscript_bracket left right nothing, inside_bracket]
    exact ⟨ends, before, after⟩

/-- The links that an operand may begin with are read alike in front and behind an expression. -/
theorem front_suffix (first : Sentence m (.link link) a) (leads : link.Leads)
    (tail : Sentence m (.chain (Chain.after before link)) v)
    (same : m.absorbs → link = .index → before.entered = chain)
    (plain : m.absorbs → link ≠ .flatten → left.endsInProjection = false) (below : Below 1 rest)
    (readable : ∀ u, u.length < (a ++ v).length → Readable m u) :
    Front m (.suffix left) chain (a ++ v) rest := by
  obtain ⟨t, others, shape, -⟩ := link_cons first
  have behind := readable v (by simp +arith [shape])
  cases first with
  | linkIndex =>
    refine ⟨_, v, _, rfl, .index, ?_, fun strict base => ?_⟩
    · exact resumes_plain (fun _ => subscript_ends rfl) tail (entered_not_fresh before)
        fun strict => same strict rfl
    · exact inside_subscript (plain strict nofun) base (inside_leaf rfl rfl)
  | linkSlice nonzero =>
    apply front_projection (behind.tail 20 rest _ tail (fun _ => rfl) below)
    intro taken more p reads inner
    refine ⟨_, by simpa using Reads.slice nonzero reads, rfl, fun strict base => ?_⟩
    have ends := plain strict nofun
    exact inside_eachItem.mpr ⟨subscript_ends rfl,
      inside_subscript ends base (inside_leaf rfl rfl), inner strict⟩
  | linkEach =>
    apply front_projection (behind.tail 20 rest _ tail (fun _ => rfl) below)
    intro taken more p reads inner
    exact ⟨_, .each reads, rfl, fun strict base =>
      inside_eachItem.mpr ⟨plain strict nofun, base, inner strict⟩⟩
  | linkFilter test =>
    apply front_projection (behind.tail 21 rest _ tail (fun _ => rfl) below)
    intro taken more p reads inner
    have closed : Below 1 (.symbol .rightBracket :: (taken ++ (more ++ rest))) :=
      fun t begins => by cases begins; decide
    obtain ⟨e, predicate, inside⟩ := operand_whole (readable _ (by simp +arith)) test closed
    refine ⟨_, by simpa using Reads.filter predicate reads, rfl, fun strict base => ?_⟩
    exact inside_filter.mpr ⟨plain strict nofun, base, inside strict, inner strict⟩
  | linkFlatten =>
    apply front_projection (behind.tail 9 rest _ tail (fun _ => rfl) below)
    intro taken more p reads inner
    exact ⟨_, .flatten reads, rfl, fun strict base => inside_flatten.mpr ⟨base, inner strict⟩⟩
  | _ => exact leads.elim

private theorem front_leading (front : Front m (.suffix .identity) chain w rest) :
    Front m .leading chain w rest := by
  obtain ⟨taken, more, e, shape, reads, resumes, inside⟩ := front
  exact ⟨taken, more, e, shape, .leadingSuffix reads, resumes, inside⟩

private theorem front_following (front : Front m (.suffix left) chain w rest) :
    Front m (.following left) chain w rest := by
  obtain ⟨taken, more, e, shape, reads, resumes, inside⟩ := front
  exact ⟨taken, more, e, shape, .followingSuffix reads, resumes, inside⟩

/-- A name is read with the links that hold it tighter than a dot, or than its projection. -/
theorem front_name (name : Sentence m .name a) (tail : Sentence m (.chain before.entered) v)
    (same : m.absorbs → before.entered = chain) (settled : m.absorbs → chain.Settled binding)
    (below : Below 1 rest) (readable : ∀ u, u.length < (a ++ v).length → Readable m u) :
    Front m (.operand binding) chain (a ++ v) rest := by
  obtain ⟨e, reads, ends, inside⟩ := name_reads name (chain_no_call tail below)
    fun u shorter => readable u (by rw [List.length_append]; omega)
  have front : Front m .leading chain (a ++ v) rest :=
    ⟨a, v, e, rfl, reads, resumes_plain (fun _ => ends) tail (entered_not_fresh before) same,
      fun strict _ => inside strict⟩
  exact front_operand front below settled readable

/-- A star at the beginning is read with what is applied to the values. -/
theorem front_values (tail : Sentence m (.chain next) v) (fresh : m.absorbs → next = .fresh 20)
    (below : Below 1 rest) (readable : ∀ u, u.length < v.length + 1 → Readable m u) :
    Front m .leading chain (.symbol .star :: v) rest := by
  apply front_projection (a := [_]) ((readable v (by omega)).tail 20 rest _ tail fresh below)
  intro taken more p reads inner
  exact ⟨_, .values reads, rfl, fun strict _ =>
    inside_eachValue.mpr ⟨rfl, inside_identity, inner strict⟩⟩

private theorem operand_step (ungrouped : m.absorbs → m.groups = false)
    (operand : Sentence m .operand w)
    (below : Below 1 rest) (readable : ∀ v, v.length < w.length → Readable m v) :
    Front m (.operand binding) .plain w rest := by
  have settled : m.absorbs → Chain.plain.Settled binding := fun _ => trivial
  cases operand with
  | negated operand =>
    obtain ⟨taken, more, e, rfl, reads, resumes, inside⟩ :=
      (readable _ (by simp)).operand 45 rest operand below
    have front : Front m .leading .plain (.symbol .not :: (taken ++ more)) rest :=
      ⟨_ :: taken, more, _, rfl, .not reads, resumes_same resumes rfl,
        fun strict nothing => inside_not.mpr (inside strict nothing)⟩
    exact front_operand front below settled readable
  | @referred w operand =>
    obtain ⟨e, reads, inside⟩ := operand_whole (readable _ (by simp)) operand below
    have front : Front m .leading .plain (.symbol .reference :: w) rest :=
      ⟨_ :: w, [], _, by simp, .reference reads,
        resumes_plain (fun _ => rfl) .done id fun _ => rfl,
        fun strict _ => inside_reference.mpr (inside strict)⟩
    exact front_operand front below settled readable
  | @begun a v atom tail =>
    obtain ⟨e, reads, inside⟩ := atom_reads ungrouped atom (chain_no_call tail below)
      fun u shorter => readable u (by rw [List.length_append]; omega)
    have front : Front m .leading .plain (a ++ v) rest :=
      ⟨a, v, e, rfl, reads, resumes_plain (fun strict => (inside strict).1) tail id fun _ => rfl,
        fun strict _ => (inside strict).2⟩
    exact front_operand front below settled readable
  | spread tail =>
    exact front_operand (front_values tail (fun _ => rfl) below readable) below settled readable
  | led leads first tail =>
    have suffix : Front m (.suffix .identity) .plain _ rest :=
      front_suffix first leads tail (fun _ _ => rfl) (fun _ _ => rfl) below readable
    exact front_operand (front_leading suffix) below settled readable

/-- A multi-select behind a dot ends what is applied to the elements. -/
theorem completes_select (reads : Reads (.member binding) a e (v ++ rest))
    (inside : m.absorbs → e.ChainsInside) (tail : Sentence m (.chain before.selected) v)
    (fresh : m.absorbs → before = .fresh binding) (below : Below 1 rest) :
    Completes m (.member binding) (a ++ v) rest := by
  refine ⟨a, v, e, rfl, reads, fun chain other projects => ⟨?_, fun strict _ => ?_⟩, inside⟩
  · refine ⟨_, tail, fun late => (selected_not_fresh before late).elim, fun _ ends => ?_⟩
    rw [projects] at ends
    cases ends
  · rw [fresh strict] at tail
    exact shut_below strict tail below

/-- What is applied to the elements of a projection is an operand or stands behind a dot. -/
theorem tail_step (chained : Sentence m (.chain before) w)
    (fresh : m.absorbs → before = .fresh binding) (below : Below 1 rest)
    (readable : ∀ v, v.length < w.length → Readable m v) :
    Completes m (.projection binding) w rest := by
  have entered : m.absorbs → before.entered = .within binding := fun strict => by
    rw [fresh strict]
    rfl
  have settled : m.absorbs → (Chain.within binding).Settled binding := fun _ => Nat.le_refl _
  have bare : Below projectionStop (w ++ rest) → Completes m (.projection binding) w rest :=
    completes_bare chained
  cases chained with
  | done => exact bare (below_mono (by decide) below)
  | joined joins operand =>
    have power := (connective_power joins).2.1
    exact bare (below_append rfl (Nat.lt_trans power (by decide)))
  | @linked _ link a v allowed first tail =>
    have led : link.Leads → Completes m (.operand binding) (a ++ v) rest := fun leads => by
      have suffix : Front m (.suffix .identity) (.within binding) _ rest :=
        front_suffix first leads tail (fun strict _ => entered strict) (fun _ _ => rfl) below readable
      exact completes_operand (front_operand (front_leading suffix) below settled readable) below
    cases first with
    | linkName name =>
      have front := front_name name tail entered settled below
        fun u shorter => readable u (Nat.lt_succ_of_lt shorter)
      obtain ⟨t, others, rfl, starts, -⟩ := name_cons name
      exact completes_dot (completes_named (completes_operand front below) starts)
    | linkSelect items =>
      obtain ⟨es, reads, inside⟩ := (readable _ (by simp +arith)).items .rightBracket _ items rfl
      exact completes_dot (completes_select (.memberList reads) inside tail fresh below)
    | linkHash entries =>
      obtain ⟨es, reads, inside⟩ := (readable _ (by simp +arith)).entries _ entries
      exact completes_dot (completes_select (.memberHash reads) inside tail fresh below)
    | linkValues =>
      have star : Front m .leading (.within binding) (.symbol .star :: v) rest :=
        front_values tail (fun strict => by rw [fresh strict]; rfl) below
          fun u shorter => readable u (Nat.lt_succ_of_lt shorter)
      have front := front_operand star below settled
        fun u shorter => readable u (Nat.lt_succ_of_lt shorter)
      exact completes_dot (completes_named (completes_operand front below) trivial)
    | linkIndex => exact completes_inner (led trivial) (.inl rfl)
    | linkSlice nonzero => exact completes_inner (led trivial) (.inl rfl)
    | linkEach => exact completes_inner (led trivial) (.inl rfl)
    | linkFilter test => exact completes_inner (led trivial) (.inr rfl)
    | linkFlatten => exact bare (below_append rfl (by decide))
    | @linkList w items noWildcard =>
      obtain ⟨es, reads, inside⟩ := (readable _ (by simp +arith)).items .rightBracket _ items rfl
      have list : Front m .leading (.within binding) (.symbol .leftBracket :: w ++ v) rest :=
        ⟨_, v, _, rfl, .list reads noWildcard,
          resumes_plain (fun _ => rfl) tail (entered_not_fresh before) entered,
          fun strict _ => inside strict⟩
      exact completes_inner (completes_operand (front_operand list below settled readable) below)
        (.inl rfl)

private theorem front_named (front : Front m (.operand binding) chain (t :: w) rest)
    (starts : t.StartsMember) : Front m (.member binding) chain (t :: w) rest := by
  obtain ⟨taken, more, e, shape, reads, resumes, inside⟩ := front
  obtain ⟨u, taken, rfl⟩ := reads_cons reads
  cases shape
  exact ⟨_, more, e, rfl, .named starts reads, resumes, inside⟩

/-- A dot links what stands behind it, unless that is a star. -/
theorem front_dot (front : Front m (.member 40) chain (t :: w) rest) (noStar : t ≠ .symbol .star)
    (plain : m.absorbs → left.endsInProjection = false) :
    Front m (.following left) chain (.symbol .dot :: t :: w) rest := by
  obtain ⟨taken, more, e, shape, reads, resumes, inside⟩ := front
  obtain ⟨u, taken, rfl⟩ := member_cons reads
  cases shape
  refine ⟨_, more, .dot left e, rfl, .dot reads (by simpa using noStar), resumes_same resumes rfl, ?_⟩
  exact fun strict base => inside_dot.mpr ⟨plain strict, base, inside strict inside_identity⟩

/-- An operator takes an operand that leaves nothing tighter than itself. -/
theorem front_joined (joins : t.connective?.isSome) (operand : Sentence m .operand w)
    (below : Below 1 rest) (readable : Readable m w) :
    Front m (.following left) chain (t :: w) rest := by
  obtain ⟨build, joins⟩ := Option.isSome_iff_exists.mp joins
  obtain ⟨taken, more, right, rfl, reads, resumes, inside⟩ :=
    readable.operand t.bindingPower rest operand below
  obtain ⟨next, chained, -⟩ := resumes.next
  have power := (connective_power (Option.isSome_of_eq_some joins)).2.1
  have held : Below 9 (more ++ rest) := below_mono power (operand_below reads)
  have restarted := chain_restart chained (below_initial (List.prefix_append more rest) held) chain
  have ends := connective_ends joins left right
  refine ⟨t :: taken, more, build left right, rfl, .connective joins reads, ?_, ?_⟩
  · refine ⟨⟨chain, restarted, fun _ => below_mono (by decide) held, fun _ _ => rfl⟩, ?_⟩
    intro strict projects
    rw [ends] at projects
    cases projects
  · exact fun strict base =>
      (connective_inside joins left right).mpr ⟨base, inside strict inside_identity⟩

/-- Links that do not take projections whole follow an expression that leaves none open. -/
theorem front_linked (allowed : m.Allows before link) (first : Sentence m (.link link) a)
    (tail : Sentence m (.chain (before.after link)) v) (old : ¬ before.Fresh)
    (same : m.absorbs → before = chain) (plain : m.absorbs → left.endsInProjection = false)
    (settled : m.absorbs → chain.Settled binding) (holds : binding < link.power)
    (below : Below 1 rest) (readable : ∀ u, u.length < (a ++ v).length → Readable m u) :
    Front m (.following left) chain (a ++ v) rest := by
  have entered : m.absorbs → before.entered = chain := fun strict => by
    rw [same strict, settled_entered (settled strict)]
  have selected : m.absorbs → before.selected = chain := fun strict => by
    rw [same strict, settled_selected (settled strict)]
  have suffix : link.Leads → Front m (.suffix left) chain (a ++ v) rest := fun leads =>
    front_suffix first leads tail (fun strict _ => entered strict) (fun strict _ => plain strict)
      below readable
  cases first with
  | linkName name =>
    have settled : m.absorbs → chain.Settled 40 := fun strict =>
      settled_mono (settled strict) (Nat.le_of_lt holds)
    have front := front_name name tail entered settled below
      fun u shorter => readable u (Nat.lt_succ_of_lt shorter)
    obtain ⟨t, others, rfl, starts, noStar⟩ := name_cons name
    exact front_dot (front_named front starts) noStar plain
  | @linkSelect w items =>
    obtain ⟨es, reads, inside⟩ := (readable _ (by simp +arith)).items .rightBracket _ items rfl
    have front : Front m (.member 40) chain (.symbol .leftBracket :: w ++ v) rest :=
      ⟨_, v, _, rfl, .memberList reads,
        resumes_plain (fun _ => rfl) tail (selected_not_fresh before) selected,
        fun strict _ => inside strict⟩
    exact front_dot front nofun plain
  | @linkHash w entries =>
    obtain ⟨es, reads, inside⟩ := (readable _ (by simp +arith)).entries _ entries
    have front : Front m (.member 40) chain (.symbol .leftBrace :: w ++ v) rest :=
      ⟨_, v, _, rfl, .memberHash reads,
        resumes_plain (fun _ => rfl) tail (selected_not_fresh before) selected,
        fun strict _ => inside strict⟩
    exact front_dot front nofun plain
  | linkValues =>
    have fresh : m.absorbs → before.after .values = .fresh 40 := fun strict => by
      rw [same strict, Chain.after, settled_values (settled strict)]
    apply front_projection (a := [_, _])
      ((readable v (by simp +arith)).tail 40 rest _ tail fresh below)
    intro taken more p reads inner
    exact ⟨_, .dotValues reads, rfl, fun strict base =>
      inside_eachValue.mpr ⟨plain strict, base, inner strict⟩⟩
  | linkIndex => exact front_following (suffix trivial)
  | linkSlice nonzero => exact front_following (suffix trivial)
  | linkEach => exact front_following (suffix trivial)
  | linkFilter test => exact front_following (suffix trivial)
  | linkFlatten => exact front_following (suffix trivial)
  | linkList items noWildcard => exact (old (allowed.1 rfl).2).elim

private theorem chain_step (resumes : Resumes m chain left w rest)
    (settled : m.absorbs → chain.Settled binding) (below : Below 1 rest)
    (readable : ∀ v, v.length < w.length → Readable m v) :
    Front m (.continuing binding left) chain w rest := by
  obtain ⟨next, chained, fresh, same⟩ := resumes.next
  have stop : Below (binding + 1) (w ++ rest) → Front m (.continuing binding left) chain w rest :=
    fun held => ⟨[], w, left, rfl, .stop held, resumes, fun _ base => base⟩
  cases chained with
  | done => exact stop (below_mono (Nat.le_add_left 1 binding) below)
  | @joined v _ t joins operand =>
    by_cases holds : binding < t.bindingPower
    · exact front_continuing (front_joined joins operand below (readable v (by simp))) rfl holds below
        settled readable
    · exact stop (below_append rfl (by omega))
  | @linked _ link a v allowed first tail =>
    obtain ⟨t, others, shape, power, -⟩ := link_cons first
    have begins : a ++ v = t :: (others ++ v) := by simp [shape]
    by_cases holds : binding < t.bindingPower
    · refine front_continuing ?_ begins holds below settled readable
      by_cases flatten : link = .flatten
      · subst flatten
        exact front_following (front_suffix first trivial tail (fun _ => nofun)
          (fun _ other => absurd rfl other) below readable)
      · have far : ¬ Below projectionStop (a ++ v ++ rest) := fun held => by
          have low := held t (by simp [shape])
          cases link <;> simp [Link.power] at power <;> simp [projectionStop, power] at low flatten
        have plain : m.absorbs → left.endsInProjection = false := fun strict => by
          cases ends : left.endsInProjection with
          | false => rfl
          | true => exact (far (resumes.ended strict ends)).elim
        exact front_linked allowed first tail (fun late => far (fresh late))
          (fun strict => same strict (plain strict)) plain settled (power ▸ holds) below readable
    · exact stop (below_append begins (by omega))

private theorem items_step (items : Sentence m (.items close) w)
    (closes : (Token.symbol close).bindingPower = 0)
    (readable : ∀ v, v.length < w.length → Readable m v) :
    ∃ es, Reads (.items close) w (.list es) rest ∧ (m.absorbs → (Expr.list es).ChainsInside) := by
  have closed : ∀ symbol, (Token.symbol symbol).bindingPower = 0 → ∀ more : List Token,
      Below 1 (.symbol symbol :: more) := by
    intro symbol power more t begins
    cases begins
    omega
  cases items with
  | lastItem item =>
    obtain ⟨e, reads, inside⟩ := operand_whole (readable _ (by simp)) item (closed close closes rest)
    exact ⟨[e], .lastItem reads, fun strict =>
      inside_list_cons.mpr ⟨inside strict, inside_leaf rfl rfl⟩⟩
  | nextItem item others =>
    obtain ⟨e, reads, inside⟩ := operand_whole (readable _ (by simp)) item (closed .comma rfl _)
    obtain ⟨es, more, kept⟩ := (readable _ (by simp +arith)).items close rest others closes
    exact ⟨e :: es, .nextItem reads more, fun strict =>
      inside_list_cons.mpr ⟨inside strict, kept strict⟩⟩

private theorem entries_step (entries : Sentence m .entries w)
    (readable : ∀ v, v.length < w.length → Readable m v) :
    ∃ es, Reads .entries w (.hash es) rest ∧ (m.absorbs → (Expr.hash es).ChainsInside) := by
  cases entries with
  | lastEntry key value =>
    obtain ⟨name, key⟩ := Option.isSome_iff_exists.mp key
    have closed : Below 1 (.symbol .rightBrace :: rest) := fun t begins => by cases begins; decide
    obtain ⟨e, reads, inside⟩ := operand_whole (readable _ (by simp +arith)) value closed
    exact ⟨[(name, e)], .lastEntry key reads, fun strict =>
      inside_hash_cons.mpr ⟨inside strict, inside_leaf rfl rfl⟩⟩
  | nextEntry key value others =>
    obtain ⟨name, key⟩ := Option.isSome_iff_exists.mp key
    have closed : ∀ more, Below 1 (.symbol .comma :: more) :=
      fun more t begins => by cases begins; decide
    obtain ⟨e, reads, inside⟩ := operand_whole (readable _ (by simp +arith)) value (closed _)
    obtain ⟨es, last, kept⟩ := (readable _ (by simp +arith)).entries rest others
    exact ⟨(name, e) :: es, .nextEntry key reads last, fun strict =>
      inside_hash_cons.mpr ⟨inside strict, kept strict⟩⟩

end

/-- Sentences are read in every manner that does without groups where links are absorbed: a group may
end in a projection, which then takes no more links. -/
theorem readable {m : Manner} (ungrouped : m.absorbs → m.groups = false) (w : List Token) :
    Readable m w := by
  induction size : w.length using Nat.strongRecOn generalizing w with
  | ind size shorter =>
    subst size
    have smaller : ∀ v, v.length < w.length → Readable m v := fun v less => shorter _ less v rfl
    exact {
      operand := fun _ _ operand below => operand_step ungrouped operand below smaller
      chain := fun _ _ _ _ resumes settled below => chain_step resumes settled below smaller
      tail := fun _ _ _ chained fresh below => tail_step chained fresh below smaller
      items := fun _ _ items closes => items_step items closes smaller
      entries := fun _ entries => entries_step entries smaller }

/-- Every sentence is an expression, and its chains stay inside where links are absorbed. -/
theorem sentence_reads {m : Manner} (ungrouped : m.absorbs → m.groups = false)
    (sentence : Sentence m .operand w) :
    ∃ e, Reads (.operand 0) w e [] ∧ (m.absorbs → e.ChainsInside) :=
  operand_whole (readable ungrouped w) sentence nofun

end JsonQuery
