import JsonQuery.Expr.Parser
import JsonQuery.Proofs.ReadingSoundness

/-! A parser that keeps its place goes the way of the readers of a token stream. Each of its rules
has the outcome of the reader of the same rule, ends inside its tokens, and leaves those that are
ahead of it as they were, whether it succeeds or fails. -/
namespace JsonQuery

/-- The first place of a stream. -/
def TokenStream.first (s : TokenStream) : Slot :=
  match s.upcoming with
  | t :: _ => .ofToken t
  | [] => ⟨none, s.finish⟩

namespace Parser

/-- The stream is what the parser has not come past. -/
def Shows (p : Parser) (s : TokenStream) : Prop :=
  p.slots.drop p.index = s.slots

/-- The parser has not gone back, and has touched nothing of what is ahead of it. -/
structure GoesOnTo (p q : Parser) : Prop where
  forward : p.index ≤ q.index
  untouched : q.slots.drop q.index = p.slots.drop q.index

variable {p q r : Parser} {s t : TokenStream}

private theorem goes_on_refl (p : Parser) : p.GoesOnTo p :=
  ⟨Nat.le_refl _, rfl⟩

private theorem goes_on_trans (first : p.GoesOnTo q) (second : q.GoesOnTo r) : p.GoesOnTo r := by
  refine ⟨Nat.le_trans first.forward second.forward, ?_⟩
  have reach : q.index + (r.index - q.index) = r.index := Nat.add_sub_cancel' second.forward
  calc r.slots.drop r.index = q.slots.drop r.index := second.untouched
    _ = (q.slots.drop q.index).drop (r.index - q.index) := by rw [List.drop_drop, reach]
    _ = (p.slots.drop q.index).drop (r.index - q.index) := by rw [first.untouched]
    _ = p.slots.drop r.index := by rw [List.drop_drop, reach]

private theorem slots_length (s : TokenStream) : s.slots.length = s.upcoming.length + 1 := by
  simp [TokenStream.slots]

theorem shows_length (shows : p.Shows s) : p.slots.length = p.index + s.upcoming.length + 1 := by
  have length := congrArg List.length shows
  rw [List.length_drop, slots_length] at length
  omega

/-- What is so far ahead of the parser is so far ahead in the stream. -/
theorem slot_ahead (shows : p.Shows s) (offset : Nat) :
    p.slots[min (p.index + offset) (p.slots.length - 1)]? =
      s.slots[min offset s.upcoming.length]? := by
  have length := shows_length shows
  have place : min (p.index + offset) (p.slots.length - 1) =
      p.index + min offset s.upcoming.length := by omega
  rw [place, ← List.getElem?_drop, shows]

/-- No more tokens are ahead than before. -/
theorem fewer_ahead (before : p.Shows s) (after : q.Shows t) (on : p.GoesOnTo q) :
    q.index + t.upcoming.length = p.index + s.upcoming.length := by
  have length := congrArg List.length on.untouched
  simp only [List.length_drop] at length
  have := shows_length before
  have := shows_length after
  omega

private theorem slot_first (s : TokenStream) : s.slots[0]? = some s.first := by
  obtain ⟨_ | ⟨t, more⟩, finish⟩ := s <;> rfl

/-- The next place shows the rest of the stream. At the end there is no other place. -/
theorem next_shows (shows : p.Shows s) :
    p.next.Shows s.tail ∧ p.next.depth = p.depth ∧ p.GoesOnTo p.next := by
  have length := shows_length shows
  obtain ⟨_ | ⟨t, more⟩, finish⟩ := s
  · have last : p.next = p := if_neg (by simp at length; omega)
    rw [last]
    exact ⟨shows, rfl, goes_on_refl p⟩
  · have moved : p.next = { p with index := p.index + 1 } := if_pos (by simp at length; omega)
    rw [moved]
    refine ⟨?_, rfl, Nat.le_succ _, rfl⟩
    rw [Shows, ← List.drop_drop, shows]
    rfl

/-- Nothing behind the place is changed when its token is taken out. -/
theorem emptied_behind (p : Parser) :
    p.emptied.slots.drop (p.index + 1) = p.slots.drop (p.index + 1) := by
  refine List.ext_getElem? fun i => ?_
  rw [List.getElem?_drop, List.getElem?_drop]
  exact List.getElem?_modify_ne _ _ (by omega)

/-- There is nothing to take out at the end. -/
theorem emptied_end (shows : p.Shows ⟨[], finish⟩) : p.emptied = p := by
  have slot : p.slots[p.index]? = some ⟨none, finish⟩ := by
    rw [← Nat.add_zero p.index, ← List.getElem?_drop, shows]
    rfl
  have same : (p.slots.modify p.index fun slot => { slot with token := none }) = p.slots := by
    refine List.ext_getElem? fun i => ?_
    by_cases here : p.index = i
    · subst here
      rw [List.getElem?_modify_eq, slot]
      rfl
    · exact List.getElem?_modify_ne _ _ here
  rw [emptied, same]

/-- A parser whose token is taken goes on to where it would have gone with it. -/
theorem emptied_next_shows (shows : p.Shows s) :
    p.emptied.next.Shows s.tail ∧ p.emptied.next.depth = p.depth ∧ p.GoesOnTo p.emptied.next := by
  have length := shows_length shows
  obtain ⟨_ | ⟨t, more⟩, finish⟩ := s
  · rw [emptied_end shows]
    exact next_shows shows
  · have moved : p.emptied.next = { p.emptied with index := p.index + 1 } :=
      if_pos (by simp [emptied] at length ⊢; omega)
    have behind := emptied_behind p
    rw [moved]
    refine ⟨?_, rfl, Nat.le_succ _, behind⟩
    rw [Shows, behind, ← List.drop_drop, shows]
    rfl

end Parser

namespace Machine

variable {p q : Parser} {s : TokenStream} {α β : Type} {n depth : Nat}

private theorem machine_bind {m : Machine α} {f : α → Machine β} (ran : m p = some (.ok a, q)) :
    (m >>= f) p = f a q := by
  simp [bind, ExceptT.bind, ExceptT.mk, ExceptT.bindCont, StateT.bind, ran]

private theorem machine_bind_error {m : Machine α} {f : α → Machine β}
    (ran : m p = some (.error e, q)) : (m >>= f) p = some (.error e, q) := by
  simp [bind, ExceptT.bind, ExceptT.mk, ExceptT.bindCont, StateT.bind, ran, pure, StateT.pure]

/-- The machine has the outcome of the reader on all streams of at most so many tokens. -/
def Follows (n depth : Nat) (m : Machine α) (reads : Parse α) : Prop :=
  ∀ p s, p.Shows s → p.depth = depth → s.upcoming.length ≤ n →
    ∃ q, m p = some ((reads s).1, q) ∧ q.Shows (reads s).2 ∧ q.depth = depth ∧ p.GoesOnTo q

private theorem follows_still {m : Machine α} {reads : Parse α}
    (still : ∀ p s, p.Shows s → m p = some ((reads s).1, p) ∧ (reads s).2 = s) :
    Follows n depth m reads := by
  intro p s shows inside bound
  obtain ⟨ran, same⟩ := still p s shows
  exact ⟨p, ran, same.symm ▸ shows, inside, p.goes_on_refl⟩

private theorem follows_pure (a : α) : Follows n depth (pure a) (pure a) :=
  follows_still fun _ _ _ => ⟨rfl, rfl⟩

private theorem follows_throw (e : ParseError) :
    Follows n depth (throw e : Machine α) (Parse.fail e) :=
  follows_still fun _ _ _ => ⟨rfl, rfl⟩

private theorem follows_fewer {m : Machine α} {reads : Parse α} (fewer : k ≤ n)
    (follows : Follows n depth m reads) : Follows k depth m reads :=
  fun p s shows inside bound => follows p s shows inside (Nat.le_trans bound fewer)

/-- What comes behind a reader has to be followed only on the tokens that the reader leaves. -/
theorem follows_chain {m : Machine α} {reads : Parse α} {f : α → Machine β} {g : α → Parse β}
    (first : Follows n depth m reads)
    (next : ∀ s a after, reads s = (.ok a, after) → s.upcoming.length ≤ n →
      after.upcoming.length ≤ s.upcoming.length →
        Follows after.upcoming.length depth (f a) (g a)) :
    Follows n depth (m >>= f) (reads >>= g) := by
  intro p s shows inside bound
  obtain ⟨q, ran, left, within, on⟩ := first p s shows inside bound
  rcases read : reads s with ⟨e | a, after⟩
  · rw [read] at ran left
    rw [bind_of_failed read]
    exact ⟨q, machine_bind_error ran, left, within, on⟩
  · rw [read] at ran left
    have left : q.Shows after := left
    have forward := on.forward
    have fewer := Parser.fewer_ahead shows left on
    obtain ⟨r, ends, last, still, further⟩ :=
      next s a after read bound (by omega) q after left within (Nat.le_refl _)
    rw [bind_of_ran read, machine_bind ran]
    exact ⟨r, ends, last, still, Parser.goes_on_trans on further⟩

private theorem follows_bind {m : Machine α} {reads : Parse α} {f : α → Machine β} {g : α → Parse β}
    (first : Follows n depth m reads) (next : ∀ a, Follows n depth (f a) (g a)) :
    Follows n depth (m >>= f) (reads >>= g) :=
  follows_chain first fun _ a _ _ bound fewer =>
    follows_fewer (Nat.le_trans fewer bound) (next a)

private theorem follows_map {m : Machine α} {reads : Parse α} (f : α → β)
    (first : Follows n depth m reads) :
    Follows n depth (do return f (← m)) (do return f (← reads)) :=
  follows_bind first fun a => follows_pure (f a)

private theorem slot_ran (shows : p.Shows s)
    (there : s.slots[min offset s.upcoming.length]? = some found) :
    slot offset p = some (.ok found, p) := by
  rw [← Parser.slot_ahead shows] at there
  rw [slot, there]
  rfl

private theorem first_ran (shows : p.Shows s) : slot 0 p = some (.ok s.first, p) := by
  refine slot_ran shows ?_
  rw [Nat.zero_min, Parser.slot_first]

private theorem peek_ran (shows : p.Shows s) :
    peek p = some (.ok (s.upcoming.head?.map PlacedToken.token), p) := by
  rw [peek, machine_bind (first_ran shows)]
  obtain ⟨_ | ⟨t, more⟩, finish⟩ := s <;> rfl

private theorem follows_peek : Follows n depth peek Parse.peek :=
  follows_still fun _ _ shows => ⟨peek_ran shows, rfl⟩

private theorem follows_peek_second : Follows n depth peekSecond Parse.peekSecond := by
  refine follows_still fun p s shows => ⟨?_, rfl⟩
  obtain ⟨_ | ⟨t, _ | ⟨u, more⟩⟩, finish⟩ := s
  all_goals
    rw [peekSecond, machine_bind (slot_ran shows (by simp [TokenStream.slots]; rfl))]
    rfl

private theorem position_ran (shows : p.Shows s) : position p = some (.ok s.position, p) := by
  rw [position, machine_bind (first_ran shows)]
  obtain ⟨_ | ⟨t, more⟩, finish⟩ := s <;> rfl

private theorem follows_position : Follows n depth position Parse.position :=
  follows_still fun _ _ shows => ⟨position_ran shows, rfl⟩

private theorem follows_fail_here (expected : String) :
    Follows n depth (failHere expected : Machine α) (Parse.failHere expected) := by
  refine follows_still fun p s shows => ?_
  rw [failHere, machine_bind (first_ran shows)]
  obtain ⟨_ | ⟨t, more⟩, finish⟩ := s <;> exact ⟨rfl, rfl⟩

private theorem follows_advance : Follows n depth advance Parse.advance := by
  intro p s shows inside _
  obtain ⟨next, still, on⟩ := Parser.next_shows shows
  exact ⟨p.next, rfl, next, still.trans inside, on⟩

/-- Taking gives the first place of the stream and goes on to the others. -/
theorem take_ran (shows : p.Shows s) : take p = some (.ok s.first, p.emptied.next) := by
  have slot : p.slots[p.index]? = some s.first := by
    rw [← Nat.add_zero p.index, ← List.getElem?_drop, shows, Parser.slot_first]
  rw [take, machine_bind (position_ran shows)]
  change some (Except.ok (Slot.mk (p.slots[p.index]?.bind Slot.token) s.position), _) = _
  rw [slot]
  obtain ⟨_ | ⟨t, more⟩, finish⟩ := s <;> rfl

private theorem follows_if (c : Prop) [Decidable c] {m m' : Machine α} {reads reads' : Parse α}
    (first : Follows n depth m reads) (second : Follows n depth m' reads') :
    Follows n depth (if c then m else m') (if c then reads else reads') := by
  split_ifs
  · exact first
  · exact second

private theorem follows_expect (symbol : Symbol) (expected : String) :
    Follows n depth (expect symbol expected) (Parse.expect symbol expected) := by
  refine follows_bind follows_peek fun next => ?_
  cases next with
  | none => exact follows_fail_here expected
  | some t =>
    cases t with
    | symbol s => exact follows_if (s = symbol) follows_advance (follows_fail_here expected)
    | _ => exact follows_fail_here expected

private theorem follows_expect_end (expected : String) :
    Follows n depth (expectEnd expected) (Parse.expectEnd expected) := by
  intro p s shows inside bound
  rw [expectEnd, machine_bind (peek_ran shows)]
  obtain ⟨_ | ⟨t, more⟩, finish⟩ := s
  · -- At the end there is nothing to go on to.
    exact follows_advance p _ shows inside bound
  · exact follows_fail_here expected p _ shows inside bound

private theorem follows_bounded (position : Nat) (e : Expr) :
    Follows n depth (bounded position e) (Expr.bounded (some maxExprDepth) position e) :=
  follows_if (e.deeperThan maxExprDepth = true) (follows_throw _) (follows_pure e)

private theorem follows_hash_key : Follows n depth hashKey Rules.hashKey := by
  intro p s shows inside _
  obtain ⟨left, still, on⟩ := Parser.emptied_next_shows shows
  refine ⟨p.emptied.next, ?_, ?_, still.trans inside, on⟩
  · rw [hashKey, machine_bind (take_ran shows)]
    obtain ⟨_ | ⟨⟨t, position⟩, more⟩, finish⟩ := s
    · rfl
    · cases t <;> rfl
  · obtain ⟨_ | ⟨⟨t, position⟩, more⟩, finish⟩ := s
    · exact left
    · cases t <;> exact left

/-- The number at the start of a part is optional, and both go on in the same way without it. -/
theorem follows_slice_start (rest : ∀ part,
      Follows n depth (sliceRest colons part) (JsonQuery.sliceRest colons part)) :
    Follows n depth (sliceParts colons) (Rules.sliceParts colons) := by
  rw [sliceParts, optionalNumber, Rules.sliceParts]
  refine follows_bind follows_peek fun next => ?_
  cases next with
  | none => exact rest none
  | some t =>
    cases t with
    | number n => exact follows_bind follows_advance fun _ => rest (some n)
    | _ => exact rest none

private theorem follows_slice_rest (part : Option Int64)
    (parts : ∀ fewer, colons = fewer + 1 →
      Follows n depth (sliceParts fewer) (Rules.sliceParts fewer)) :
    Follows n depth (sliceRest colons part) (JsonQuery.sliceRest colons part) := by
  rw [sliceRest.eq_def]
  refine follows_bind follows_peek fun next => ?_
  cases next with
  | none => exact follows_fail_here _
  | some t =>
    cases t with
    | symbol s =>
      cases s with
      | rightBracket => exact follows_pure _
      | colon =>
        cases colons with
        | zero => exact follows_bind follows_position fun offset => follows_throw _
        | succ fewer => exact follows_bind follows_advance fun _ => follows_map _ (parts fewer rfl)
      | _ => exact follows_fail_here _
    | _ => exact follows_fail_here _

private theorem follows_slice_parts (colons : Nat) :
    Follows n depth (sliceParts colons) (Rules.sliceParts colons) := by
  induction colons with
  | zero => exact follows_slice_start fun part => follows_slice_rest part nofun
  | succ colons ih =>
    exact follows_slice_start fun part => follows_slice_rest part fun fewer same =>
      Nat.succ.inj same ▸ ih

private theorem follows_slice : Follows n depth slice Rules.slice := by
  refine follows_bind (follows_slice_parts 2) fun parts =>
    follows_bind follows_position fun closing =>
      follows_bind (follows_expect _ _) fun _ => ?_
  exact follows_if _ (follows_throw _) (follows_pure _)

/-! ## Loops -/

/-- A reader that takes at least one token when it succeeds. -/
def Consumes (reads : Parse α) : Prop :=
  ∀ s a after, reads s = (.ok a, after) → after.upcoming.length < s.upcoming.length

/-- What comes behind a reader that takes a token has fewer tokens to read. -/
theorem follows_then {m : Machine α} {reads : Parse α} {f : α → Machine β} {g : α → Parse β}
    (first : Follows n depth m reads) (consumes : Consumes reads)
    (next : ∀ fewer < n, ∀ a, Follows fewer depth (f a) (g a)) :
    Follows n depth (m >>= f) (reads >>= g) :=
  follows_chain first fun s a after read bound _ =>
    next after.upcoming.length (Nat.lt_of_lt_of_le (consumes s a after read) bound) a

/-- There are more places than tokens, so that a loop that takes a token in each round ends. -/
theorem follows_rounds {m : Nat → Machine α} {reads : Nat → Parse α}
    (each : ∀ count budget, count < budget → count ≤ n →
      Follows count depth (m budget) (reads count)) :
    Follows n depth (rounds m) fun s => reads s.upcoming.length s := by
  intro p s shows inside bound
  have length := Parser.shows_length shows
  exact each s.upcoming.length p.slots.length (by omega) bound p s shows inside (Nat.le_refl _)

private theorem follows_separated {item : Machine α} {reads : Parse α}
    (each : Follows n depth item reads) (consumes : Consumes reads) (count : Nat) :
    ∀ budget, count < budget → count ≤ n → Follows count depth
      (separated item close expected budget) (Parse.separated reads close expected count) := by
  induction count with
  | zero =>
    rintro (_ | budget) enough within
    · cases enough
    · exact follows_then (follows_fewer within each) consumes fun fewer less => nomatch less
  | succ count ih =>
    rintro (_ | budget) enough within
    · cases enough
    · refine follows_then (follows_fewer within each) consumes fun fewer less a =>
        follows_bind follows_peek fun next => ?_
      have others := follows_fewer (Nat.le_of_lt_succ less)
        (ih budget (Nat.lt_of_succ_lt_succ enough) (Nat.le_of_succ_le within))
      cases next with
      | none => exact follows_fail_here expected
      | some t =>
        cases t with
        | symbol s =>
          cases s with
          | comma => exact follows_bind follows_advance fun _ => follows_map _ others
          | _ =>
            exact follows_if _ (follows_bind follows_advance fun _ => follows_pure [a])
              (follows_fail_here expected)
        | _ => exact follows_fail_here expected

private theorem follows_comma_list {item : Machine α} {reads : Parse α}
    (each : Follows n depth item reads) (consumes : Consumes reads) :
    Follows n depth (commaList item close expected) (Parse.commaList reads close expected) :=
  follows_rounds (follows_separated each consumes)

/-! ## Rules -/

private theorem consumes_takes {reads : Parse α} (takes : ∀ s a after, reads s = (.ok a, after) →
    ∃ t others, Takes s (t :: others) after) : Consumes reads := by
  intro s a after ran
  obtain ⟨t, others, placed, spelled, same⟩ := takes s a after ran
  have length := congrArg List.length spelled
  rw [same]
  simp at length ⊢
  omega

section

variable {runs : ExprMachine} {sub : ExprReader}
  (parts : ∀ binding, Follows n depth (runs binding) (sub binding)) (faithful : Faithful sub)

include faithful

theorem consumes_sub (binding : Nat) : Consumes (sub binding) := by
  refine consumes_takes fun s e after ran => ?_
  obtain ⟨taken, takes, reads⟩ := faithful binding s e after ran
  obtain ⟨t, others, rfl⟩ := reads_cons reads
  exact ⟨t, others, takes⟩

private theorem consumes_hash_entry : Consumes (Rules.hashEntry sub) := by
  refine consumes_takes ?_
  rintro s ⟨key, e⟩ after ran
  obtain ⟨t, middle, -, takesKey, value⟩ := hash_entry_run ran
  obtain ⟨taken, takes, -⟩ := faithful 0 middle e after value
  exact ⟨t, _, takes_append.mpr ⟨middle, takesKey, takes⟩⟩

include parts

private theorem follows_multi_select_list :
    Follows n depth (multiSelectList runs) (Rules.multiSelectList sub) :=
  follows_map _ (follows_comma_list (parts 0) (consumes_sub faithful 0))

omit faithful in
theorem follows_entry : Follows n depth (entry runs) (Rules.hashEntry sub) :=
  follows_bind follows_hash_key fun _ => follows_bind (follows_expect _ _) fun _ =>
    follows_map _ (parts 0)

private theorem follows_multi_select_hash :
    Follows n depth (multiSelectHash runs) (Rules.multiSelectHash sub) :=
  follows_map _ (follows_comma_list (follows_entry parts) (consumes_hash_entry faithful))

private theorem follows_arguments : Follows n depth (arguments runs) (Rules.arguments sub) := by
  refine follows_bind (follows_expect _ _) fun _ => follows_bind follows_peek fun next => ?_
  have listed : Follows n depth (commaList (runs 0) .rightParen "',' or ')'")
      (Parse.commaList (sub 0) .rightParen "',' or ')'") :=
    follows_comma_list (parts 0) (consumes_sub faithful 0)
  cases next with
  | none => exact listed
  | some t =>
    cases t with
    | symbol s =>
      cases s with
      | rightParen => exact follows_bind follows_advance fun _ => follows_pure []
      | _ => exact listed
    | _ => exact listed

private theorem follows_dot_tail (binding : Nat) :
    Follows n depth (dotTail runs binding) (Rules.dotTail sub binding) := by
  refine follows_bind follows_peek fun next => ?_
  cases next with
  | none => exact follows_fail_here _
  | some t =>
    cases t with
    | identifier | quotedIdentifier | functionName => exact parts binding
    | symbol s =>
      cases s with
      | star => exact parts binding
      | leftBracket =>
        exact follows_bind follows_advance fun _ => follows_multi_select_list parts faithful
      | leftBrace =>
        exact follows_bind follows_advance fun _ => follows_multi_select_hash parts faithful
      | _ => exact follows_fail_here _
    | _ => exact follows_fail_here _

private theorem follows_projection_tail (binding : Nat) :
    Follows n depth (projectionTail runs binding) (Rules.projectionTail sub binding) := by
  refine follows_bind follows_peek fun next => ?_
  have other (t : Token) : Follows n depth
      (if t.bindingPower < projectionStop then pure Expr.identity
        else failHere "'.', '[' or '[?' after a projection")
      (if t.bindingPower < projectionStop then pure Expr.identity
        else Parse.failHere "'.', '[' or '[?' after a projection") :=
    follows_if _ (follows_pure _) (follows_fail_here _)
  cases next with
  | none => exact follows_pure _
  | some t =>
    cases t with
    | symbol s =>
      cases s with
      | leftBracket | filter => exact parts binding
      | dot => exact follows_bind follows_advance fun _ => follows_dot_tail parts faithful binding
      | _ => exact other _
    | _ => exact other _

private theorem follows_filter (left : Expr) :
    Follows n depth (filter runs left) (Rules.filter sub left) :=
  follows_bind (parts 0) fun _ => follows_bind (follows_expect _ _) fun _ =>
    follows_map _ (follows_projection_tail parts faithful 21)

private theorem follows_sliced (left : Expr) :
    Follows n depth (sliced runs left) (Rules.indexOrSlice.sliced sub left) :=
  follows_bind follows_slice fun _ =>
    follows_map _ (follows_projection_tail parts faithful 20)

private theorem follows_index_or_slice (left : Expr) :
    Follows n depth (indexOrSlice runs left) (Rules.indexOrSlice sub left) := by
  refine follows_bind follows_peek fun next => follows_bind follows_peek_second fun second => ?_
  have sliced := follows_sliced parts faithful left
  have go_on : Follows n depth advance Parse.advance := follows_advance
  have indexed (m : Int64) := follows_bind go_on fun _ =>
    follows_bind (follows_expect .rightBracket "']'") fun _ =>
      follows_pure (Rules.subscript left (.index m))
  have refused : Follows n depth (failHere "number" : Machine Expr) (Parse.failHere "number") :=
    follows_fail_here _
  -- A colon in either place makes a slice, and otherwise only a number in the first one counts.
  rcases second with _ | _ | _ | _ | _ | _ | _ | other
  any_goals cases other
  all_goals
    rcases next with _ | _ | _ | _ | _ | _ | m | s
    any_goals cases s
    all_goals first | exact refused | exact sliced | exact indexed m

private theorem follows_leading_bracket :
    Follows n depth (leadingBracket runs) (Rules.leadingBracket sub) := by
  refine follows_bind follows_peek fun next => follows_bind follows_peek_second fun second => ?_
  have listed := follows_multi_select_list parts faithful
  have subscripted := follows_index_or_slice parts faithful .identity
  have go_on : Follows n depth advance Parse.advance := follows_advance
  have wildcard := follows_bind go_on fun _ => follows_bind go_on fun _ =>
    follows_map (Expr.eachItem .identity) (follows_projection_tail parts faithful 20)
  cases next with
  | none => exact listed
  | some t =>
    cases t with
    | number => exact subscripted
    | symbol s =>
      cases s with
      | colon => exact subscripted
      | star =>
        rcases second with _ | _ | _ | _ | _ | _ | _ | closing
        any_goals cases closing
        all_goals first | exact listed | exact wildcard
      | _ => exact listed
    | _ => exact listed

private theorem follows_following_bracket (left : Expr) :
    Follows n depth (followingBracket runs left) (Rules.followingBracket sub left) := by
  refine follows_bind follows_peek fun next => ?_
  have star : Follows n depth (expect .star "number, ':' or '*'")
      (Parse.expect .star "number, ':' or '*'") := follows_expect _ _
  have wildcard := follows_bind star fun _ => follows_bind (follows_expect .rightBracket "']'")
    fun _ => follows_map (Expr.eachItem left) (follows_projection_tail parts faithful 20)
  cases next with
  | none => exact wildcard
  | some t =>
    cases t with
    | number => exact follows_index_or_slice parts faithful left
    | symbol s =>
      cases s with
      | colon => exact follows_index_or_slice parts faithful left
      | _ => exact wildcard
    | _ => exact wildcard

private theorem follows_leading (t : PlacedToken) :
    Follows n depth (leading runs (.ofToken t)) (Rules.leading sub t) := by
  obtain ⟨t, position⟩ := t
  have refused (t : Token) : Follows n depth
      (throw ((Slot.ofToken ⟨t, position⟩).unexpected "an expression"))
      (Parse.fail (.unexpectedToken t "an expression" position) : Parse Expr) := follows_throw _
  cases t with
  | literal | rawString | identifier => exact follows_pure _
  | number => exact refused _
  | quotedIdentifier name =>
    refine follows_bind follows_peek fun next => ?_
    cases next with
    | none => exact follows_pure _
    | some t =>
      cases t with
      | symbol s =>
        cases s with
        | leftParen => exact follows_throw _
        | _ => exact follows_pure _
      | _ => exact follows_pure _
  | functionName name => exact follows_map _ (follows_arguments parts faithful)
  | symbol s =>
    cases s with
    | current => exact follows_pure _
    | star => exact follows_map _ (follows_projection_tail parts faithful 20)
    | flatten => exact follows_map _ (follows_projection_tail parts faithful 9)
    | filter => exact follows_filter parts faithful _
    | leftBracket => exact follows_leading_bracket parts faithful
    | leftBrace => exact follows_multi_select_hash parts faithful
    | leftParen =>
      exact follows_bind (parts 0) fun inner =>
        follows_bind (follows_expect _ _) fun _ => follows_pure inner
    | not => exact follows_map _ (parts 45)
    | reference => exact follows_map _ (parts 0)
    | _ => exact refused _

private theorem follows_following (t : PlacedToken) (left : Expr) :
    Follows n depth (following runs (.ofToken t) left) (Rules.following sub t left) := by
  obtain ⟨t, position⟩ := t
  have refused (t : Token) : Follows n depth
      (throw ((Slot.ofToken ⟨t, position⟩).unexpected "an operator"))
      (Parse.fail (.unexpectedToken t "an operator" position) : Parse Expr) := follows_throw _
  cases t with
  | symbol s =>
    cases s with
    | dot =>
      refine follows_bind follows_peek fun next => ?_
      have member := follows_map (Expr.dot left) (follows_dot_tail parts faithful 40)
      cases next with
      | none => exact member
      | some t =>
        cases t with
        | symbol s =>
          cases s with
          | star =>
            exact follows_bind follows_advance fun _ =>
              follows_map _ (follows_projection_tail parts faithful 40)
          | _ => exact member
        | _ => exact member
    | pipe => exact follows_map _ (parts 1)
    | or => exact follows_map _ (parts 2)
    | and => exact follows_map _ (parts 3)
    | comparator op => exact follows_map _ (parts 5)
    | flatten => exact follows_map _ (follows_projection_tail parts faithful 9)
    | filter => exact follows_filter parts faithful left
    | leftBracket => exact follows_following_bracket parts faithful left
    | _ => exact refused _
  | _ => exact refused _

end

/-! ## Expressions -/

/-- What follows a token taken, in front of the other tokens. -/
theorem take_then {f : Slot → Machine β} {reads : Parse β}
    (shows : p.Shows ⟨t :: more, finish⟩) (bound : more.length ≤ n)
    (next : Follows n p.depth (f (.ofToken t)) reads) :
    ∃ q, (take >>= f) p = some ((reads ⟨more, finish⟩).1, q) ∧ q.Shows (reads ⟨more, finish⟩).2 ∧
      q.depth = p.depth ∧ p.GoesOnTo q := by
  obtain ⟨left, still, on⟩ := Parser.emptied_next_shows shows
  obtain ⟨q, ran, ends, within, further⟩ := next p.emptied.next ⟨more, finish⟩ left still bound
  refine ⟨q, ?_, ends, within, Parser.goes_on_trans on further⟩
  rw [machine_bind (take_ran shows)]
  exact ran

theorem continued_stops (shows : p.Shows s) (weak : ¬binding < s.first.bindingPower) :
    continued runs binding (budget + 1) left p = some (.ok left, p) := by
  rw [continued, machine_bind (first_ran shows), if_neg weak]
  rfl

private theorem continued_goes_on (shows : p.Shows s) (strong : binding < s.first.bindingPower) :
    continued runs binding (budget + 1) left p = (do
      let taken ← take
      let left ← bounded taken.position (← following runs taken left)
      continued runs binding budget left : Machine Expr) p := by
  rw [continued, machine_bind (first_ran shows), if_pos strong]

section

variable {runs : ExprMachine} {sub : ExprReader}
  (parts : ∀ binding, Follows n depth (runs binding) (sub binding)) (faithful : Faithful sub)

include parts faithful

private theorem follows_continued (binding count : Nat) :
    ∀ left budget, count < budget → count ≤ n → Follows count depth
      (continued runs binding budget left)
      (Expr.continued (some maxExprDepth) sub binding count left) := by
  induction count with
  | zero =>
    rintro left (_ | budget) enough within p ⟨_ | ⟨t, more⟩, finish⟩ shows inside bound
    · cases enough
    · cases enough
    · exact ⟨p, continued_stops shows (Nat.not_lt_zero _), shows, inside, p.goes_on_refl⟩
    · cases bound
  | succ count ih =>
    rintro left (_ | budget) enough within p ⟨_ | ⟨t, more⟩, finish⟩ shows inside bound
    · cases enough
    · cases enough
    · exact ⟨p, continued_stops shows (Nat.not_lt_zero _), shows, inside, p.goes_on_refl⟩
    · by_cases strong : binding < t.token.bindingPower
      · subst inside
        have next := follows_bind
          (follows_fewer (Nat.le_of_succ_le within) (follows_following parts faithful t left))
          fun e => follows_bind (follows_bounded t.position e) fun e =>
            ih e budget (Nat.lt_of_succ_lt_succ enough) (Nat.le_of_succ_le within)
        have ends := take_then (f := fun taken => do
          let left ← bounded taken.position (← following runs taken left)
          continued runs binding budget left) shows (Nat.le_of_succ_le_succ bound) next
        simp only [Expr.continued, peek_bind, List.head?_cons, Option.map_some, if_pos strong,
          position_bind, advance_bind, tail_cons]
        rw [continued_goes_on shows strong]
        exact ends
      · simp only [Expr.continued, peek_bind, List.head?_cons, Option.map_some, if_neg strong]
        exact ⟨p, continued_stops shows strong, shows, inside, p.goes_on_refl⟩

/-- An operand is its first token and what continues it. -/
theorem follows_operand (binding : Nat) (shows : p.Shows ⟨t :: more, finish⟩)
    (inside : p.depth = depth) (bound : more.length ≤ n) (reads : Parse Expr)
    (same : reads = do
      let left ← Rules.leading sub t
      let left ← Expr.bounded (some maxExprDepth) t.position left
      fun s => Expr.continued (some maxExprDepth) sub binding s.upcoming.length left s) :
    ∃ q, operand runs binding p = some ((reads ⟨more, finish⟩).1, q) ∧
      q.Shows (reads ⟨more, finish⟩).2 ∧ q.depth = p.depth ∧ p.GoesOnTo q := by
  subst inside same
  rw [operand]
  exact take_then shows bound (follows_bind (follows_leading parts faithful t) fun e =>
    follows_bind (follows_bounded t.position e) fun e =>
      follows_rounds fun count budget enough within =>
        follows_continued parts faithful binding count e budget enough within)

end

private theorem nested_too_deep (binding : Nat) (shows : p.Shows s)
    (deep : maxExprDepth ≤ p.depth) :
    nested (budget + 1) binding p = some (.error (.tooDeep maxExprDepth s.position), p) := by
  rw [nested]
  dsimp only
  rw [if_pos deep, position_ran shows]
  rfl

/-- Around its operand an expression only counts up and down. -/
theorem nested_around (shallow : ¬maxExprDepth ≤ p.depth)
    (inner : ∃ q, operand (nested budget) binding { p with depth := p.depth + 1 } =
      some (outcome, q) ∧ q.Shows after ∧ q.depth = p.depth + 1 ∧
        Parser.GoesOnTo { p with depth := p.depth + 1 } q) :
    ∃ q, nested (budget + 1) binding p = some (outcome, q) ∧ q.Shows after ∧
      q.depth = p.depth ∧ p.GoesOnTo q := by
  obtain ⟨q, ran, left, within, on⟩ := inner
  refine ⟨{ q with depth := q.depth - 1 }, ?_, left, ?_, on.forward, on.untouched⟩
  · rw [nested]
    dsimp only
    rw [if_neg shallow, ran]
    rfl
  · exact Nat.sub_eq_of_eq_add within

private theorem reader_too_deep (count : Nat) (deep : maxExprDepth ≤ depth) :
    Expr.reader (some maxExprDepth) count depth binding s =
      (.error (.tooDeep maxExprDepth s.position), s) := by
  have refused : Expr.guardNesting (some maxExprDepth) depth s =
      (.error (.tooDeep maxExprDepth s.position), s) := by
    rw [Expr.guardNesting, if_pos deep]
    rfl
  cases count <;> exact bind_of_failed refused

private theorem guard_passed (shallow : ¬maxExprDepth ≤ depth) :
    Expr.guardNesting (some maxExprDepth) depth s = (.ok (), s) := by
  rw [Expr.guardNesting, if_neg shallow]
  rfl

/-- There is no expression at the end. -/
theorem operand_at_end (runs : ExprMachine) (binding : Nat) (shows : p.Shows ⟨[], finish⟩) :
    ∃ q, operand runs binding p = some (.error (.unexpectedEnd "an expression" finish), q) ∧
      q.Shows ⟨[], finish⟩ ∧ q.depth = p.depth ∧ p.GoesOnTo q := by
  refine ⟨p.emptied.next, ?_, Parser.emptied_next_shows shows⟩
  rw [operand, machine_bind (take_ran shows), leading]
  rfl

/-- Without tokens an expression fails, and so does its reader. -/
theorem nested_at_end (binding count : Nat) (shows : p.Shows ⟨[], finish⟩) :
    ∃ q, nested (budget + 1) binding p =
        some ((Expr.reader (some maxExprDepth) count p.depth binding ⟨[], finish⟩).1, q) ∧
      q.Shows (Expr.reader (some maxExprDepth) count p.depth binding ⟨[], finish⟩).2 ∧
        q.depth = p.depth ∧ p.GoesOnTo q := by
  by_cases deep : maxExprDepth ≤ p.depth
  · rw [reader_too_deep count deep]
    exact ⟨p, nested_too_deep binding shows deep, shows, rfl, p.goes_on_refl⟩
  · have counted : Parser.Shows { p with depth := p.depth + 1 } ⟨[], finish⟩ := shows
    cases count with
    | zero | succ =>
      rw [Expr.reader, bind_of_ran (guard_passed deep)]
      exact nested_around deep (operand_at_end _ binding counted)

/-- An expression has the outcome of its reader, whatever that is, and it nests no deeper than there
are tokens. -/
theorem follows_nested (count : Nat) : ∀ budget depth binding, count < budget →
    Follows count depth (nested budget binding)
      (Expr.reader (some maxExprDepth) count depth binding) := by
  induction count with
  | zero =>
    rintro (_ | budget) depth binding enough p ⟨_ | ⟨t, more⟩, finish⟩ shows rfl bound
    · cases enough
    · cases enough
    · exact nested_at_end binding 0 shows
    · cases bound
  | succ count ih =>
    rintro (_ | budget) depth binding enough p ⟨_ | ⟨t, more⟩, finish⟩ shows rfl bound
    · cases enough
    · cases enough
    · exact nested_at_end binding (count + 1) shows
    · by_cases deep : maxExprDepth ≤ p.depth
      · rw [reader_too_deep _ deep]
        exact ⟨p, nested_too_deep binding shows deep, shows, rfl, p.goes_on_refl⟩
      · have counted : Parser.Shows { p with depth := p.depth + 1 } ⟨t :: more, finish⟩ := shows
        have parts binding := ih budget (p.depth + 1) binding (Nat.lt_of_succ_lt_succ enough)
        rw [Expr.reader, bind_of_ran (guard_passed deep)]
        exact nested_around deep (follows_operand parts (Expr.reader_faithful _ _ _) binding
          counted rfl (Nat.le_of_succ_le_succ bound) _ rfl)

theorem follows_expression (binding : Nat) : Follows n 0 (expression binding)
    (Expr.readWithin (some maxExprDepth) binding) :=
  follows_rounds fun count budget enough _ => follows_nested count budget 0 binding enough

theorem follows_whole : Follows n 0 whole (Expr.readAll (some maxExprDepth)) := by
  refine follows_bind follows_peek fun next => ?_
  cases next with
  | none => exact follows_pure _
  | some t =>
    exact follows_bind (follows_expression 0) fun e =>
      follows_bind (follows_expect_end _) fun _ => follows_pure e

end Machine

end JsonQuery
