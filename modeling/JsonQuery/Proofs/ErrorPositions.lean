import JsonQuery.Proofs.LexErrors
import JsonQuery.Proofs.ParserHistory
import JsonQuery.Proofs.RuleClosure

/-! Where the errors of the parser point. Readers only ever go on in the stream that they are given,
so a token that is named in an error is one of the text, at the offset where it stands, and an error
about the end is at the end. -/
namespace JsonQuery
open Parse Rules

/-- The token that shows the mistake. -/
def SyntaxFault.token : SyntaxFault → Token
  | .quotedFunctionName name => .quotedIdentifier name
  | .tooManyColons => .symbol .colon
  | .zeroStep => .symbol .rightBracket

namespace TokenStream

/-- The offsets of all tokens, and of the end. -/
def places (s : TokenStream) : List Nat :=
  s.upcoming.map PlacedToken.position ++ [s.finish]

/-- The stream is what is left of the whole one. -/
structure EndsOf (whole s : TokenStream) : Prop where
  upcoming : s.upcoming <:+ whole.upcoming
  finish : s.finish = whole.finish

variable {whole s : TokenStream}

private theorem ends_tail (ends : EndsOf whole s) : EndsOf whole s.tail :=
  ⟨(List.tail_suffix _).trans ends.upcoming, ends.finish⟩

private theorem ends_first {finish : Nat} (ends : EndsOf whole ⟨t :: more, finish⟩) :
    t ∈ whole.upcoming :=
  ends.upcoming.subset List.mem_cons_self

private theorem place_of_token (there : ⟨t, p⟩ ∈ whole.upcoming) : p ∈ whole.places :=
  List.mem_append_left _ (List.mem_map.mpr ⟨_, there, rfl⟩)

private theorem place_of_ends (ends : EndsOf whole s) : s.position ∈ whole.places := by
  obtain ⟨_ | ⟨⟨t, p⟩, more⟩, finish⟩ := s
  · exact List.mem_append_right _ (List.mem_singleton.mpr ends.finish)
  · exact place_of_token (ends_first ends)

end TokenStream

open TokenStream

/-- The stream has, at the offset of the error, what the error says. -/
inductive ParseError.Shows (limit : Option Nat) (s : TokenStream) : ParseError → Prop where
  | unexpectedToken (there : ⟨found, p⟩ ∈ s.upcoming) :
      Shows limit s (.unexpectedToken found expected p)
  | unexpectedEnd : Shows limit s (.unexpectedEnd expected s.finish)
  | invalid (there : ⟨fault.token, p⟩ ∈ s.upcoming) : Shows limit s (.invalid fault p)
  /-- The end counts, since an expression may be missing there that would be too deep. -/
  | tooDeep (limited : limit = some n) (there : p ∈ s.places) : Shows limit s (.tooDeep n p)

/-- On what is left of the whole stream, the reader leaves some of it again, and its errors say what
the whole stream has. -/
def Truthful {α : Type} (limit : Option Nat) (whole : TokenStream) (p : Parse α) : Prop :=
  ∀ s, EndsOf whole s →
    EndsOf whole (p s).2 ∧ ∀ e, (p s).1 = .error e → e.Shows limit whole

section Primitives

variable {α β : Type} {limit : Option Nat} {whole : TokenStream}

private theorem truthful_pure (a : α) : Truthful limit whole (pure a : Parse α) :=
  fun _ ends => ⟨ends, nofun⟩

private theorem truthful_fail (shows : e.Shows limit whole) :
    Truthful limit whole (fail e : Parse α) := by
  refine fun s ends => ⟨ends, ?_⟩
  rintro _ ⟨⟩
  exact shows

private theorem truthful_fail_here (expected : String) :
    Truthful limit whole (failHere expected : Parse α) := by
  rintro ⟨_ | ⟨t, more⟩, finish⟩ ends
  · refine ⟨ends, ?_⟩
    rintro _ ⟨⟩
    have last : finish = whole.finish := ends.finish
    rw [last]
    exact .unexpectedEnd
  · refine ⟨ends, ?_⟩
    rintro _ ⟨⟩
    exact .unexpectedToken (ends_first ends)

private theorem truthful_advance : Truthful limit whole advance :=
  fun _ ends => ⟨ends_tail ends, nofun⟩

private theorem truthful_peek : Truthful limit whole peek :=
  fun _ ends => ⟨ends, nofun⟩

private theorem truthful_peek_second : Truthful limit whole peekSecond :=
  fun _ ends => ⟨ends, nofun⟩

private theorem truthful_bind {p : Parse α} {f : α → Parse β} (first : Truthful limit whole p)
    (next : ∀ a, Truthful limit whole (f a)) : Truthful limit whole (p >>= f) := by
  intro s ends
  obtain ⟨left, shows⟩ := first s ends
  rcases ran : p s with ⟨failure | a, after⟩
  · rw [ran] at left shows
    rw [bind_of_failed ran]
    refine ⟨left, ?_⟩
    rintro _ ⟨⟩
    exact shows _ rfl
  · rw [ran] at left
    rw [bind_of_ran ran]
    exact next a after left

private theorem truthful_position {f : Nat → Parse β}
    (next : ∀ n ∈ whole.places, Truthful limit whole (f n)) :
    Truthful limit whole (position >>= f) :=
  fun s ends => next _ (place_of_ends ends) s ends

private theorem truthful_take {f : Option PlacedToken → Parse β}
    (ended : Truthful limit whole (f none))
    (next : ∀ t ∈ whole.upcoming, Truthful limit whole (f (some t))) :
    Truthful limit whole (take >>= f) := by
  rintro ⟨_ | ⟨t, more⟩, finish⟩ ends
  · exact ended _ (ends_tail ends)
  · exact next t (ends_first ends) _ (ends_tail ends)

/-- What is put together from truthful readers is truthful. -/
theorem truthful_composes : Compositional fun p => Truthful limit whole p where
  pure := truthful_pure
  fail_here := truthful_fail_here
  peek := truthful_peek
  peek_second := truthful_peek_second
  advance := truthful_advance
  bind := truthful_bind
  measured := fun each s ends => each _ s ends

private theorem truthful_expect (symbol : Symbol) (expected : String) :
    Truthful limit whole (expect symbol expected) :=
  truthful_composes.expect symbol expected

/-- An offset that is kept while a symbol is expected is the one of the symbol. -/
theorem truthful_position_expect {f : Nat → Parse β}
    (next : ∀ n, ⟨.symbol symbol, n⟩ ∈ whole.upcoming → Truthful limit whole (f n)) :
    Truthful limit whole (position >>= fun n => expect symbol expected >>= fun _ => f n) := by
  intro s ends
  obtain ⟨left, shows⟩ := truthful_expect symbol expected s ends
  rw [position_bind]
  rcases ran : expect symbol expected s with ⟨failure | done, after⟩
  · rw [ran] at left shows
    rw [bind_of_failed ran]
    refine ⟨left, ?_⟩
    rintro _ ⟨⟩
    exact shows _ rfl
  · rw [ran] at left
    rw [bind_of_ran ran]
    obtain ⟨offset, rfl⟩ := takes_single.mp (expect_ok.mp ran)
    exact next _ (ends_first ends) after left

end Primitives

section Rules

variable {limit : Option Nat} {whole : TokenStream}

/-- A reader of the parts of an expression whose errors say what the whole stream has. -/
def TruthfulParts (limit : Option Nat) (whole : TokenStream) (sub : ExprReader) : Prop :=
  ∀ binding, Truthful limit whole (sub binding)

variable {sub : ExprReader} (parts : TruthfulParts limit whole sub)

private theorem truthful_hash_key : Truthful limit whole hashKey := by
  refine truthful_take (truthful_fail_here _) fun t there => ?_
  obtain ⟨t, offset⟩ := t
  cases t with
  | identifier name | quotedIdentifier name => exact truthful_pure name
  | _ => exact truthful_fail (.unexpectedToken there)

private theorem truthful_slice : Truthful limit whole slice := by
  have parts : Truthful limit whole (sliceParts 2) := by
    refine truthful_composes.slice_parts (fun part => ?_) 2
    -- A colon too many is met where it stands.
    rintro ⟨_ | ⟨⟨t, offset⟩, others⟩, finish⟩ ends
    · exact truthful_fail_here _ _ ends
    · cases t with
      | symbol symbol =>
        cases symbol with
        | rightBracket => exact truthful_pure _ _ ends
        | colon => exact truthful_fail (.invalid (ends_first ends)) _ ends
        | _ => exact truthful_fail_here _ _ ends
      | _ => exact truthful_fail_here _ _ ends
  refine truthful_bind parts fun parts => truthful_position_expect fun closing there => ?_
  dsimp only
  split_ifs
  · exact truthful_fail (.invalid there)
  · exact truthful_pure _

include parts

private theorem truthful_projection_tail (binding : Nat) :
    Truthful limit whole (projectionTail sub binding) :=
  truthful_composes.projection_tail parts truthful_hash_key binding

private theorem truthful_filter (left : Expr) : Truthful limit whole (filter sub left) :=
  truthful_composes.filter parts truthful_hash_key left

/-- The token with which the expression begins has been taken, and is one of the whole. -/
theorem truthful_leading (there : ⟨t, offset⟩ ∈ whole.upcoming) :
    Truthful limit whole (leading sub ⟨t, offset⟩) := by
  have refused : Truthful limit whole
      (fail (.unexpectedToken t "an expression" offset) : Parse Expr) :=
    truthful_fail (.unexpectedToken there)
  cases t with
  | literal | rawString | identifier => exact truthful_pure _
  | number => exact refused
  | quotedIdentifier name =>
    refine truthful_bind truthful_peek fun next => ?_
    split
    · exact truthful_fail (.invalid there)
    · exact truthful_pure _
  | functionName name => exact truthful_composes.map _ (truthful_composes.arguments parts)
  | symbol s =>
    cases s with
    | current => exact truthful_pure _
    | star => exact truthful_composes.map _ (truthful_projection_tail parts 20)
    | flatten => exact truthful_composes.map _ (truthful_projection_tail parts 9)
    | filter => exact truthful_filter parts _
    | leftBracket =>
      exact truthful_composes.leading_bracket parts truthful_hash_key truthful_slice
    | leftBrace => exact truthful_composes.multi_select_hash parts truthful_hash_key
    | leftParen =>
      exact truthful_bind (parts 0) fun inner =>
        truthful_bind (truthful_expect _ _) fun _ => truthful_pure inner
    | not => exact truthful_composes.map _ (parts 45)
    | reference => exact truthful_composes.map _ (parts 0)
    | _ => exact refused

private theorem truthful_following (there : ⟨t, offset⟩ ∈ whole.upcoming) (left : Expr) :
    Truthful limit whole (following sub ⟨t, offset⟩ left) := by
  have refused : Truthful limit whole
      (fail (.unexpectedToken t "an operator" offset) : Parse Expr) :=
    truthful_fail (.unexpectedToken there)
  cases t with
  | symbol s =>
    cases s with
    | dot =>
      refine truthful_bind truthful_peek fun next => ?_
      split
      · exact truthful_bind truthful_advance fun _ =>
          truthful_composes.map _ (truthful_projection_tail parts 40)
      · exact truthful_composes.map _
          (truthful_composes.dot_tail parts truthful_hash_key 40)
    | pipe => exact truthful_composes.map _ (parts 1)
    | or => exact truthful_composes.map _ (parts 2)
    | and => exact truthful_composes.map _ (parts 3)
    | comparator op => exact truthful_composes.map _ (parts 5)
    | flatten => exact truthful_composes.map _ (truthful_projection_tail parts 9)
    | filter => exact truthful_filter parts left
    | leftBracket =>
      exact truthful_composes.following_bracket parts truthful_hash_key truthful_slice left
    | _ => exact refused
  | _ => exact refused

end Rules

namespace Expr

variable {limit : Option Nat} {whole : TokenStream}

private theorem truthful_guard (nesting : Nat) :
    Truthful limit whole (guardNesting limit nesting) := by
  cases limit with
  | none => exact truthful_pure ()
  | some bound =>
    by_cases deep : bound ≤ nesting
    · simp only [guardNesting, if_pos deep]
      exact truthful_position fun n there => truthful_fail (.tooDeep rfl there)
    · simp only [guardNesting, if_neg deep]
      exact truthful_pure ()

private theorem truthful_bounded (there : p ∈ whole.places) (e : Expr) :
    Truthful limit whole (bounded limit p e) := by
  cases limit with
  | none => exact truthful_pure e
  | some bound =>
    by_cases deep : e.deeperThan bound = true
    · simp only [bounded, if_pos deep]
      exact truthful_fail (.tooDeep rfl there)
    · simp only [bounded, if_neg deep]
      exact truthful_pure e

private theorem truthful_continued (parts : TruthfulParts limit whole sub) (binding : Nat)
    (budget : Nat) : ∀ left, Truthful limit whole (continued limit sub binding budget left) := by
  induction budget with
  | zero => exact fun left => truthful_pure left
  | succ budget ih =>
    rintro left ⟨_ | ⟨⟨t, offset⟩, more⟩, finish⟩ ends
    · exact truthful_pure left _ ends
    · have there := ends_first ends
      simp only [continued, peek_bind, List.head?_cons, Option.map_some]
      by_cases holds : binding < t.bindingPower
      · simp only [if_pos holds, position_bind]
        refine truthful_bind truthful_advance (fun _ => ?_) _ ends
        exact truthful_bind (truthful_following parts there left) fun next =>
          truthful_bind (truthful_bounded (place_of_token there) next) fun next => ih next
      · simp only [if_neg holds]
        exact truthful_pure left _ ends

/-- Every reader of expressions tells the truth about the stream that it is given. -/
theorem truthful_reader (budget : Nat) :
    ∀ nesting, TruthfulParts limit whole (reader limit budget nesting) := by
  induction budget with
  | zero =>
    intro nesting binding
    exact truthful_bind (truthful_guard nesting) fun _ => truthful_fail_here _
  | succ budget ih =>
    intro nesting binding
    refine truthful_bind (truthful_guard nesting) fun _ =>
      truthful_take (truthful_fail_here _) fun t there => ?_
    refine truthful_bind (truthful_leading (ih (nesting + 1)) there) fun left =>
      truthful_bind (truthful_bounded (place_of_token there) left) fun left s ends => ?_
    exact truthful_continued (ih (nesting + 1)) binding _ left s ends

private theorem truthful_all : Truthful limit whole (readAll limit) := by
  have all : Truthful limit whole (readWithin limit 0) :=
    fun s ends => truthful_reader _ 0 0 s ends
  refine truthful_bind truthful_peek fun next => ?_
  cases next with
  | none => exact truthful_pure _
  | some t =>
    exact truthful_bind all fun e =>
      truthful_bind (truthful_composes.expect_end _) fun _ => truthful_pure e

/-- A text is refused for an error of the lexer, which says what the text has at a character of it,
or for an error that says what the tokens of the text have. These stand one behind the other, so no
other token is at the same offset, and the end is behind the last character. The parser that empties
the places of the tokens it takes comes to the same error. -/
theorem parse_error_shows (failed : Expr.parse text = .error err) :
    (∃ e, err = .lex e ∧ TokenStream.ofText text = .error e ∧ e.Shows text.toList ∧
      ∃ c, text.toList[e.position]? = some c) ∨
    ∃ s, TokenStream.ofText text = .ok s ∧ err.Shows (some maxExprDepth) s ∧
      s.places.Pairwise (· < ·) ∧ s.finish = text.length ∧
      ∃ q, Parser.Call.whole.run (.start s) = some (.error err, q) := by
  cases lexed : TokenStream.ofText text with
  | error e =>
    have shows := of_text_shows lexed
    rw [parse, parseWithin, lexed] at failed
    cases failed
    exact .inl ⟨e, rfl, rfl, shows, shown_character shows⟩
  | ok s =>
    obtain ⟨q, ran⟩ := Parser.whole_parses lexed
    have tokenizes := Lexer.of_text_tokenizes text
    rw [lexed] at tokenizes
    rw [failed] at ran
    cases tokenizes with
    | @finish tokens p found ends =>
      obtain ⟨rfl, blanks⟩ := Lexer.finish_reached ends
      refine .inr ⟨_, rfl, ?_, Lexer.finds_ascending found blanks.1, rfl, q, ran⟩
      rw [parse, parseWithin, lexed] at failed
      exact (truthful_all _ ⟨List.suffix_refl _, rfl⟩).2 err failed

theorem parse_error_shows_colon :
    Expr.parse "a[0:1:2:3]" = .error (.invalid .tooManyColons 7) ∧
      ∃ s, TokenStream.ofText "a[0:1:2:3]" = .ok s ∧ ⟨.symbol .colon, 7⟩ ∈ s.upcoming ∧
        s.places.Pairwise (· < ·) ∧ s.finish = 10 := by
  have failed : Expr.parse "a[0:1:2:3]" = .error (.invalid .tooManyColons 7) := by cbv
  obtain ⟨e, same, -⟩ | ⟨s, lexed, shows, ascending, finish, -⟩ := parse_error_shows failed
  · cases same
  · cases shows with
    | invalid there => exact ⟨failed, s, lexed, there, ascending, finish⟩

end Expr

end JsonQuery
