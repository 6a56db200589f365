import JsonQuery.Proofs.ParserSteps

/-! What a parser is like between calls, whatever calls have come before and however they ended. A
call leaves nothing behind but the tokens that it has gone past, so it has the outcome that it would
have on a parser for the other tokens alone. -/
namespace JsonQuery

namespace Parser

/-- What a call reads from a stream of tokens. -/
def Call.reads : Call → Parse Expr
  | .whole => Expr.readAll (some maxExprDepth)
  | .expression binding => Expr.readWithin (some maxExprDepth) binding.toNat

private theorem follows_call (call : Call) : Machine.Follows n 0 call.run call.reads := by
  cases call with
  | whole => exact Machine.follows_whole
  | expression binding => exact Machine.follows_expression binding.toNat

end Parser

/-- The tokens that are left after a number of calls. -/
def TokenStream.after (s : TokenStream) : List Parser.Call → TokenStream
  | [] => s
  | call :: calls => TokenStream.after (call.reads s).2 calls

namespace Parser

/-- A parser for the tokens of a stream between two calls: it is inside no expression and has a
place, the end is marked, and no token from its place on has been touched. -/
structure Sound (s : TokenStream) (p : Parser) : Prop where
  outside : p.depth = 0
  placed : p.index < p.slots.length
  closed : p.slots.getLast? = some ⟨none, s.finish⟩
  ahead : p.slots.drop p.index = s.slots.drop p.index

variable {p q : Parser} {s rest : TokenStream} {call : Call}

private theorem shows_placed (shows : p.Shows s) : p.index < p.slots.length := by
  rw [shows_length shows]
  omega

/-- The end that a parser shows is the end that it has. -/
theorem shows_closed (shows : p.Shows s) : p.slots.getLast? = some ⟨none, s.finish⟩ := by
  have last : s.slots.getLast? = some ⟨none, s.finish⟩ := List.getLast?_concat
  rw [← shows, List.getLast?_drop, if_neg (Nat.not_le.mpr (shows_placed shows))] at last
  exact last

private theorem of_text_start (lexed : TokenStream.ofText text = .ok s) :
    ofText text = .ok (start s) := by
  rw [ofText, lexed]
  rfl

private theorem start_shows (s : TokenStream) : (start s).Shows s :=
  rfl

private theorem start_sound (s : TokenStream) : (start s).Sound s where
  outside := rfl
  placed := shows_placed (start_shows s)
  closed := shows_closed (start_shows s)
  ahead := rfl

/-- What a parser has behind it is no matter to the end of what is ahead. -/
theorem closed_goes_on (closed : p.slots.getLast? = some last) (on : p.GoesOnTo q)
    (placed : q.index < q.slots.length) : q.slots.getLast? = some last := by
  have length : q.slots.length - q.index = p.slots.length - q.index := by
    simpa using congrArg List.length on.untouched
  have ends : (q.slots.drop q.index).getLast? = (p.slots.drop q.index).getLast? := by
    rw [on.untouched]
  rw [List.getLast?_drop, List.getLast?_drop, if_neg (by omega), if_neg (by omega)] at ends
  exact ends.trans closed

/-- A sound parser that goes on is sound again. -/
theorem sound_goes_on (sound : p.Sound s) (shows : q.Shows rest) (outside : q.depth = 0)
    (on : p.GoesOnTo q) : q.Sound s where
  outside := outside
  placed := shows_placed shows
  closed := closed_goes_on sound.closed on (shows_placed shows)
  ahead := by
    have reach : p.index + (q.index - p.index) = q.index := Nat.add_sub_cancel' on.forward
    rw [on.untouched, ← reach, ← List.drop_drop, sound.ahead, List.drop_drop]

/-- A call ends with what it reads from the tokens ahead, and keeps a parser sound. -/
theorem call_sound (call : Call) (sound : p.Sound s) (shows : p.Shows rest) :
    ∃ q, call.run p = some ((call.reads rest).1, q) ∧ q.Shows (call.reads rest).2 ∧ q.Sound s ∧
      p.GoesOnTo q := by
  obtain ⟨q, ran, left, within, on⟩ := follows_call call p rest shows sound.outside (Nat.le_refl _)
  exact ⟨q, ran, left, sound_goes_on sound left within on, on⟩

/-- All calls end, and keep a parser sound. -/
theorem calls_sound (calls : List Call) (sound : p.Sound s) (shows : p.Shows rest) :
    ∃ q, p.after calls = some q ∧ q.Shows (rest.after calls) ∧ q.Sound s := by
  induction calls generalizing p rest with
  | nil => exact ⟨p, rfl, shows, sound⟩
  | cons call calls ih =>
    obtain ⟨q, ran, left, still, -⟩ := call_sound call sound shows
    obtain ⟨r, ends, last, final⟩ := ih still left
    refine ⟨r, ?_, last, final⟩
    rw [after, ran]
    exact ends

/-- An expression that is read takes the parser past a token. -/
theorem expression_moves (before : p.Shows rest) (after : q.Shows (call.reads rest).2)
    (on : p.GoesOnTo q) (asked : call = .expression binding)
    (read : (call.reads rest).1 = .ok e) : p.index < q.index := by
  subst asked
  have fewer := fewer_ahead before after on
  have consumed := Machine.consumes_sub (Expr.reader_faithful (some maxExprDepth)
    rest.upcoming.length 0) binding.toNat rest e _ (Prod.ext read rfl)
  change ((Call.expression binding).reads rest).2.upcoming.length < _ at consumed
  omega

/-- The outcome of a call depends only on what is ahead of a parser that is inside no expression. -/
theorem fresh_outcome (call : Call) (shows : p.Shows rest) :
    ∃ q, call.run (fresh (p.slots.drop p.index)) = some ((call.reads rest).1, q) := by
  obtain ⟨q, ran, -⟩ := follows_call call (fresh (p.slots.drop p.index)) rest shows rfl
    (Nat.le_refl _)
  exact ⟨q, ran⟩

/-- The first call of a parser for a text as a whole has the outcome of parsing the text. -/
theorem whole_parses (lexed : TokenStream.ofText text = .ok s) :
    ∃ q, Call.whole.run (start s) = some (Expr.parse text, q) := by
  obtain ⟨q, ran, -⟩ := call_sound .whole (start_sound s) (start_shows s)
  refine ⟨q, ran.trans ?_⟩
  rw [Expr.parse, Expr.parseWithin, lexed]
  rfl

/-- Any call after any other calls on the parser of a text ends, with what it reads from the tokens
that the others have left. The parser is sound before and after it and has not gone back, and has
gone past a token if the call was for an expression and gave one. The outcome is that of a new
parser for the places that were left. -/
theorem calls_outlived (lexed : TokenStream.ofText text = .ok s) (calls : List Call)
    (call : Call) :
    ∃ first p outcome q, ofText text = .ok first ∧ first.after calls = some p ∧
      call.run p = some (outcome, q) ∧ outcome = (call.reads (s.after calls)).1 ∧
      p.Sound s ∧ q.Sound s ∧ p.index ≤ q.index ∧
      (∀ binding e, call = .expression binding → outcome = .ok e → p.index < q.index) ∧
      ∃ r, call.run (fresh (p.slots.drop p.index)) = some (outcome, r) := by
  obtain ⟨p, ends, shows, sound⟩ := calls_sound calls (start_sound s) (start_shows s)
  obtain ⟨q, ran, left, still, on⟩ := call_sound call sound shows
  exact ⟨start s, p, _, q, of_text_start lexed, ends, ran, rfl, sound, still, on.forward,
    fun binding e asked read => expression_moves shows left on asked read,
    fresh_outcome call shows⟩

/-- A text as a whole is refused before the bracket, then at it, and then what is behind it is
read. -/
theorem calls_outlived_bracket : ∃ s, TokenStream.ofText "a] b" = .ok s ∧
    ∃ first p q, ofText "a] b" = .ok first ∧ first.after [.whole, .whole] = some p ∧
      (Call.expression 0).run p = some (.ok (.field "b"), q) ∧ p.Sound s ∧ q.Sound s ∧
      p.index < q.index := by
  have lexed : TokenStream.ofText "a] b" = .ok ⟨[⟨.identifier "a", 0⟩,
      ⟨.symbol .rightBracket, 1⟩, ⟨.identifier "b", 3⟩], 4⟩ := by rfl
  obtain ⟨first, p, outcome, q, made, ends, ran, read, before, after, -, moves, -⟩ :=
    calls_outlived lexed [.whole, .whole] (.expression 0)
  have field : outcome = .ok (.field "b") := by
    rw [read]
    cbv
  subst field
  exact ⟨_, lexed, first, p, q, made, ends, ran, before, after, moves 0 _ rfl rfl⟩

end Parser

end JsonQuery
