import Mathlib
import JsonQuery.Proofs.LexerTiling
import JsonQuery.Proofs.WrittenTokens

/-! Two texts with a space between them. The space ends every token of the first text, and where the
second one stands decides nothing but the offsets of its tokens and of its error. So the texts are
lexed one after the other, unless a name at the end of the first one is made the name of a function
by the second. -/
namespace JsonQuery

/-- The error, so many characters further on in a text. -/
def LexError.moved (offset : Nat) : LexError → LexError
  | .unexpectedCharacter c p => .unexpectedCharacter c (p + offset)
  | .unterminated what p => .unterminated what (p + offset)
  | .invalidQuotedIdentifier p => .invalidQuotedIdentifier (p + offset)
  | .invalidLiteral p => .invalidLiteral (p + offset)
  | .invalidNumber text p => .invalidNumber text (p + offset)

/-- The token, so many characters further on in a text. -/
def PlacedToken.moved (offset : Nat) (t : PlacedToken) : PlacedToken :=
  ⟨t.token, t.position + offset⟩

namespace TokenStream

/-- The stream, so many characters further on in a text. -/
def moved (offset : Nat) (s : TokenStream) : TokenStream :=
  ⟨s.upcoming.map (·.moved offset), s.finish + offset⟩

/-- The stream with more tokens in front of it. -/
def behind (front : List PlacedToken) (s : TokenStream) : TokenStream :=
  ⟨front ++ s.upcoming, s.finish⟩

end TokenStream

/-- What splitting a text comes to when it stands so many characters further on. -/
def movedOutcome (offset : Nat) (outcome : Except LexError TokenStream) :
    Except LexError TokenStream :=
  (outcome.map (·.moved offset)).mapError (·.moved offset)

section Moving

private theorem delimited_token_moved (what : Delimited) (position offset : Nat)
    (text : List Char) :
    delimitedToken what (position + offset) text =
      (delimitedToken what position text).mapError (·.moved offset) := by
  unfold delimitedToken
  cases what with
  | rawString => rfl
  | quotedIdentifier | literal =>
    dsimp only
    split <;> rfl

/-- A token is read in the same way at every offset. -/
theorem read_moved (position offset : Nat) (first : Char) (rest : List Char) :
    readToken (position + offset) first rest =
      let reading := readToken position first rest
      ⟨reading.outcome.mapError (·.moved offset), reading.length⟩ := by
  have delimited (what : Delimited) : readDelimited what (position + offset) rest =
      ⟨(readDelimited what position rest).outcome.mapError (·.moved offset),
        (readDelimited what position rest).length⟩ := by
    unfold readDelimited
    split
    · rw [delimited_token_moved]
    · rfl
  have number (negative : Bool) (cs : List Char) : readNumber (position + offset) negative cs =
      ⟨(readNumber position negative cs).outcome.mapError (·.moved offset),
        (readNumber position negative cs).length⟩ := by
    unfold readNumber
    dsimp only
    split <;> rfl
  unfold readToken
  split
  · rfl
  · split_ifs
    · exact delimited .quotedIdentifier
    · exact delimited .rawString
    · exact delimited .literal
    · exact number true rest
    · exact number false (first :: rest)
    · rfl
    · rfl

end Moving

section Scanning
open TokenStream (scanFrom)

private theorem scan_ink (ink : isBlank first = false) (rest : List Char) (budget position : Nat) :
    scanFrom (budget + 1) ⟨first :: rest, position⟩ = (do
      let reading := readToken position first rest
      let t ← reading.outcome
      let s ← scanFrom budget ⟨(first :: rest).drop reading.length, position + reading.length⟩
      return s.behind [⟨t, position⟩]) := by
  rw [scanFrom, next_ink ink]
  dsimp only
  cases (readToken position first rest).outcome <;> rfl

/-- A token that is read leaves fewer characters. -/
theorem read_fewer (read : (readToken position first rest).outcome = .ok t) :
    ((first :: rest).drop (readToken position first rest).length).length ≤ rest.length := by
  have extent := read_extent position first rest
  generalize readToken position first rest = reading at extent read
  cases extent with
  | token some_taken inside =>
    simp only [List.length_drop, List.length_cons]
    omega
  | unexpected | failure => cases read

/-- A budget that is not less than the number of characters does not show. -/
theorem scan_budget (budget : Nat) : ∀ cs position other, cs.length ≤ budget → cs.length ≤ other →
    scanFrom budget ⟨cs, position⟩ = scanFrom other ⟨cs, position⟩ := by
  induction budget with
  | zero =>
    intro cs position other enough _
    rw [List.length_eq_zero_iff.mp (Nat.le_zero.mp enough), scan_end, scan_end]
  | succ budget ih =>
    intro cs
    induction cs with
    | nil =>
      intro position other _ _
      rw [scan_end, scan_end]
    | cons c cs inner =>
      intro position other enough otherEnough
      obtain ⟨other, rfl⟩ := Nat.exists_eq_add_one.mpr (Nat.zero_lt_of_lt otherEnough)
      cases blank : isBlank c with
      | true =>
        rw [scan_blank blank, scan_blank blank]
        exact inner _ _ (Nat.le_of_succ_le enough) (Nat.le_of_succ_le otherEnough)
      | false =>
        rw [scan_ink blank, scan_ink blank]
        dsimp only
        cases read : (readToken position c cs).outcome with
        | error e => rfl
        | ok t =>
          have fewer := read_fewer read
          rw [ih _ _ other (fewer.trans (Nat.le_of_succ_le_succ enough))
            (fewer.trans (Nat.le_of_succ_le_succ otherEnough))]

/-- The same characters further on split into the same tokens further on. -/
theorem scan_moved (budget offset : Nat) : ∀ cs position,
    scanFrom budget ⟨cs, position + offset⟩ =
      movedOutcome offset (scanFrom budget ⟨cs, position⟩) := by
  induction budget with
  | zero => exact fun _ _ => rfl
  | succ budget ih =>
    intro cs
    induction cs with
    | nil => exact fun _ => rfl
    | cons c cs inner =>
      intro position
      cases blank : isBlank c with
      | true =>
        rw [scan_blank blank, scan_blank blank, Nat.add_right_comm]
        exact inner _
      | false =>
        rw [scan_ink blank, scan_ink blank, read_moved]
        dsimp only
        cases (readToken position c cs).outcome with
        | error e => rfl
        | ok t =>
          have next := ih ((c :: cs).drop (readToken position c cs).length)
            (position + (readToken position c cs).length)
          rw [Nat.add_right_comm] at next
          dsimp only [Except.mapError, bind, Except.bind]
          rw [next]
          generalize scanFrom budget _ = others
          cases others <;> rfl

/-- What the characters from a place on split into. -/
def scanAll (cs : List Char) (position : Nat) : Except LexError TokenStream :=
  scanFrom cs.length ⟨cs, position⟩

private theorem scan_all_blank (blank : isBlank c = true) (cs : List Char) (position : Nat) :
    scanAll (c :: cs) position = scanAll cs (position + 1) := by
  rw [scanAll, List.length_cons, scan_blank blank]
  exact scan_budget _ _ _ _ (Nat.le_succ _) le_rfl

private theorem scan_all_token (spells : Spells text t behind) (position : Nat) :
    scanAll (text ++ behind) position =
      (scanAll behind (position + text.length)).map (·.behind [⟨t, position⟩]) := by
  obtain ⟨first, others, rfl, -⟩ := spells_read spells
  have length : (first :: others ++ behind).length = (others ++ behind).length + 1 := rfl
  have enough : behind.length ≤ (others ++ behind).length := by
    rw [List.length_append]
    omega
  rw [scanAll, length, scan_token spells, scan_budget _ _ _ _ enough le_rfl, ← scanAll]
  cases scanAll behind (position + (first :: others).length) <;> rfl

end Scanning

section Joining

/-- Something is left of a text that has a token when its first blanks are dropped. -/
theorem lexes_ink (lexes : Lexes cs (t :: tokens)) : cs.dropWhile isBlank ≠ [] := by
  generalize listed : t :: tokens = all at lexes
  induction lexes with
  | nil => cases listed
  | blank blank _ ih =>
    rw [List.dropWhile_cons_of_pos blank]
    exact ih listed
  | token spells _ _ =>
    obtain ⟨first, others, rfl, ink, -⟩ := spells_read spells
    rw [List.cons_append, List.dropWhile_cons_of_neg (by simp [ink])]
    exact List.cons_ne_nil _ _

/-- Behind a space no text reaches a token in front of it, except that it may open a call of a name
that only blanks separate from it. -/
theorem spells_before_space (spells : Spells text t behind)
    (apart : ∀ name, t = .identifier name → behind.dropWhile isBlank = [] →
      opensCall more = false) :
    Spells text t (behind ++ ' ' :: more) := by
  have stops {inside : Char → Bool} (blank : inside ' ' = false) : Stops inside (' ' :: more) := by
    intro c first
    cases first
    exact blank
  have call : opensCall (' ' :: more) = opensCall more := rfl
  cases spells with
  | symbol found =>
    cases behind with
    | nil => exact .symbol (symbol_before_blank _ more)
    | cons d behind => exact .symbol (symbol_more found _)
  | delimited enclosed denotes => exact .delimited enclosed denotes
  | number nonempty digital after fits =>
    exact .number nonempty digital (stops_append after (stops rfl)) fits
  | identifier name after noCall =>
    refine .identifier name (stops_append after (stops rfl)) ?_
    rw [opens_call_append, call]
    split_ifs with blank
    · exact apart _ rfl blank
    · exact noCall
  | functionName name after opens =>
    refine .functionName name (stops_append after (stops rfl)) ?_
    rw [opens_call_append, if_neg]
    · exact opens
    · intro blank
      rw [opensCall, blank] at opens
      cases opens

/-- The tokens of a text stay what they are in front of a space, and then it goes on with what
stands behind the space. -/
theorem lexes_before_space (lexes : Lexes cs tokens)
    (apart : ∀ name, tokens.getLast? = some (.identifier name) → opensCall more = false) :
    ∀ position, ∃ front, scanAll cs position = .ok ⟨front, position + cs.length⟩ ∧
      scanAll (cs ++ ' ' :: more) position =
        (scanAll more (position + cs.length + 1)).map (·.behind front) := by
  induction lexes with
  | nil =>
    intro position
    refine ⟨[], rfl, ?_⟩
    rw [List.nil_append, scan_all_blank rfl]
    cases scanAll more (position + 1) <;> rfl
  | blank blank _ ih =>
    intro position
    obtain ⟨front, alone, joined⟩ := ih apart (position + 1)
    refine ⟨front, ?_, ?_⟩
    · rw [scan_all_blank blank, alone, List.length_cons, Nat.add_right_comm, Nat.add_assoc]
    · rw [List.cons_append, scan_all_blank blank, joined, List.length_cons,
        Nat.add_right_comm position 1, Nat.add_assoc position]
  | @token text t behind tokens spells others ih =>
    intro position
    have later : ∀ name, tokens.getLast? = some (.identifier name) → opensCall more = false := by
      intro name last
      refine apart name ?_
      rw [List.getLast?_cons, last]
      rfl
    have here : ∀ name, t = .identifier name → behind.dropWhile isBlank = [] →
        opensCall more = false := by
      rintro name rfl blank
      cases tokens with
      | nil => exact apart name rfl
      | cons => exact absurd blank (lexes_ink others)
    obtain ⟨front, alone, joined⟩ := ih later (position + text.length)
    refine ⟨⟨t, position⟩ :: front, ?_, ?_⟩
    · rw [scan_all_token spells, alone, List.length_append, ← Nat.add_assoc]
      rfl
    · rw [List.append_assoc, scan_all_token (spells_before_space spells here), joined,
        List.length_append, ← Nat.add_assoc]
      cases scanAll more (position + text.length + behind.length + 1) <;> rfl

end Joining

namespace TokenStream

private theorem of_text_scan (text : String) : ofText text = scanAll text.toList 0 := by
  rw [scanAll, String.length_toList]
  rfl

/-- Two texts with a space between them split into the tokens of the first and then, as far on as
the first text and the space are long, into those of the second, or they fail there as the second
one fails. The exception is a name at the end of the first text when the second opens a call. -/
theorem of_text_spaced (lexed : ofText a = .ok s)
    (apart : ∀ name, s.tokens.getLast? = some (.identifier name) → opensCall b.toList = false) :
    ofText (a ++ " " ++ b) =
      match ofText b with
      | .ok next => .ok ((next.moved (a.length + 1)).behind s.upcoming)
      | .error e => .error (e.moved (a.length + 1)) := by
  obtain ⟨front, alone, joined⟩ := lexes_before_space (text_lexes lexed) apart 0
  rw [← of_text_scan, lexed, Except.ok.injEq] at alone
  have whole : (a ++ " " ++ b).toList = a.toList ++ ' ' :: b.toList := by simp
  have moved : scanAll b.toList (0 + (a.length + 1)) = movedOutcome (a.length + 1) (ofText b) := by
    rw [of_text_scan]
    exact scan_moved _ _ _ _
  rw [of_text_scan, whole, joined, String.length_toList, Nat.add_assoc, moved, alone]
  cases ofText b <;> rfl

/-- The second text fails inside its second token. -/
theorem of_text_spaced_failure :
    ofText "a.b[0]" = .ok ⟨[⟨.identifier "a", 0⟩, ⟨.symbol .dot, 1⟩, ⟨.identifier "b", 2⟩,
        ⟨.symbol .leftBracket, 3⟩, ⟨.number 0, 4⟩, ⟨.symbol .rightBracket, 5⟩], 6⟩ ∧
      ofText "( 'x" = .error (.unterminated .rawString 2) ∧
      ofText ("a.b[0]" ++ " " ++ "( 'x") = .error (.unterminated .rawString 9) := by
  have first : ofText "a.b[0]" = .ok ⟨[⟨.identifier "a", 0⟩, ⟨.symbol .dot, 1⟩,
      ⟨.identifier "b", 2⟩, ⟨.symbol .leftBracket, 3⟩, ⟨.number 0, 4⟩,
      ⟨.symbol .rightBracket, 5⟩], 6⟩ := by cbv
  have second : ofText "( 'x" = .error (.unterminated .rawString 2) := by cbv
  refine ⟨first, second, ?_⟩
  rw [of_text_spaced first (fun name last => by cases last), second]
  rfl

end TokenStream

end JsonQuery
