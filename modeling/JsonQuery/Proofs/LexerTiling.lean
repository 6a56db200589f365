import Mathlib
import JsonQuery.Proofs.Lexing

/-! The calls of one lexer on one text, errors included. A call skips blanks and then takes a token,
or fails and goes on behind what it could not read, or stays where an unexpected character or the end
of the text stops it for ever. Hence the tokens of a text lie side by side: every character that is
not blank belongs to exactly one of them. -/
namespace JsonQuery

/-! ## What one reading takes -/

/-- A reading of a text whose first character is given: a token takes characters of the text, an
unexpected character is not taken, and any other failure takes characters too. -/
inductive Extent (position : Nat) (first : Char) (available : Nat) : Reading → Prop where
  | token (some_taken : 0 < length) (inside : length ≤ available) :
      Extent position first available ⟨.ok t, length⟩
  | unexpected : Extent position first available ⟨.error (.unexpectedCharacter first position), 0⟩
  | failure (place : e.position = position) (expected : ∀ c p, e ≠ .unexpectedCharacter c p)
      (some_taken : 0 < length) (inside : length ≤ available) :
      Extent position first available ⟨.error e, length⟩

section Readings

variable {position : Nat} {first : Char} {rest : List Char}

private theorem symbol_extent (found : symbol? (first :: rest) = some s) :
    Extent position first (rest.length + 1) ⟨.ok (.symbol s), s.text.length⟩ := by
  obtain ⟨behind, spelled⟩ := symbol_spelled found
  obtain ⟨_, others, text, -⟩ := symbol_first s
  have whole := congrArg List.length spelled
  rw [List.length_append, String.length_toList, List.length_cons] at whole
  have positive : 0 < s.text.length := by
    rw [← String.length_toList, text]
    exact Nat.succ_pos _
  exact .token positive (by omega)

private theorem delimited_token_fails (read : delimitedToken what position inside = .error e) :
    e.position = position ∧ ∀ c p, e ≠ .unexpectedCharacter c p := by
  unfold delimitedToken at read
  cases what with
  | quotedIdentifier | literal =>
    dsimp only at read
    split at read
    · cases read
    · cases read
      exact ⟨rfl, nofun⟩
  | rawString => cases read

private theorem delimited_extent (what : Delimited) (position : Nat) (first : Char)
    (rest : List Char) :
    Extent position first (rest.length + 1) (readDelimited what position rest) := by
  unfold readDelimited
  split
  · rename_i text found
    obtain ⟨-, behind, rfl⟩ := delimited_enclosed found
    have inside : text.length + 2 ≤ (text ++ what.delimiter :: behind).length + 1 := by
      rw [List.length_append, List.length_cons]
      omega
    cases read : delimitedToken what position text with
    | ok t => exact .token (Nat.succ_pos _) inside
    | error e =>
      obtain ⟨place, expected⟩ := delimited_token_fails read
      exact .failure place expected (Nat.succ_pos _) inside
  · exact .failure rfl nofun (Nat.succ_pos _) le_rfl

private theorem number_extent (some_taken : 0 < (readNumber position negative digits).length)
    (inside : (readNumber position negative digits).length ≤ available) :
    Extent position first available (readNumber position negative digits) := by
  unfold readNumber at some_taken inside ⊢
  dsimp only at some_taken inside ⊢
  split
  · exact .token some_taken inside
  · exact .failure rfl nofun some_taken inside

private theorem name_extent (start : isNameStart first = true) :
    Extent position first (rest.length + 1) (readName (first :: rest)) := by
  have part : isNamePart first = true := part_cases.mpr (.inl start)
  unfold readName
  refine .token ?_ (List.takeWhile_prefix isNamePart).length_le
  rw [List.takeWhile_cons_of_pos part]
  exact Nat.succ_pos _

theorem read_extent (position : Nat) (first : Char) (rest : List Char) :
    Extent position first (rest.length + 1) (readToken position first rest) := by
  have digits (cs : List Char) : (cs.takeWhile Char.isDigit).length ≤ cs.length :=
    (List.takeWhile_prefix Char.isDigit).length_le
  unfold readToken
  split
  · rename_i s found
    exact symbol_extent found
  · split_ifs with quoted raw literal negative digit start
    · exact delimited_extent ..
    · exact delimited_extent ..
    · exact delimited_extent ..
    · exact number_extent (Nat.succ_pos _) (Nat.succ_le_succ (digits rest))
    · refine number_extent ?_ (digits (first :: rest))
      simp [readNumber, digit]
    · exact name_extent start
    · exact .unexpected

end Readings

/-! ## What one call does -/

/-- From the first place up to the second a text has only blanks. -/
def BlankBetween (cs : List Char) (p q : Nat) : Prop :=
  p ≤ q ∧ ∀ i c, p ≤ i → i < q → cs[i]? = some c → isBlank c = true

/-- What a call comes to that begins at a place of a text, and the place where it leaves off. -/
inductive Moves (cs : List Char) (p : Nat) : Except LexError Lexeme → Nat → Prop where
  | token (skipped : BlankBetween cs p t.position) (beyond : t.position < after)
      (inside : after ≤ cs.length) : Moves cs p (.ok (.token t)) after
  | finish (skipped : BlankBetween cs p cs.length) :
      Moves cs p (.ok (.finish cs.length)) cs.length
  | unexpected (skipped : BlankBetween cs p q) (there : cs[q]? = some c) :
      Moves cs p (.error (.unexpectedCharacter c q)) q
  | failure (skipped : BlankBetween cs p e.position)
      (expected : ∀ c q, e ≠ .unexpectedCharacter c q) (beyond : e.position < after)
      (inside : after ≤ cs.length) : Moves cs p (.error e) after

namespace Cursor

/-- The cursor stands inside the text. -/
structure Within (cs : List Char) (c : Cursor) : Prop where
  rest : c.rest = cs.drop c.position
  inside : c.position ≤ cs.length

variable {cs : List Char} {c : Cursor}

private theorem start_within (text : String) : (start text).Within text.toList :=
  ⟨rfl, Nat.zero_le _⟩

private theorem rest_length (within : c.Within cs) : c.position + c.rest.length = cs.length := by
  have inside := within.inside
  rw [within.rest, List.length_drop]
  omega

private theorem advance_within (within : c.Within cs) (enough : length ≤ c.rest.length) :
    (c.advance length).Within cs := by
  have whole := rest_length within
  have inside : c.position + length ≤ cs.length := by omega
  have rest : c.rest.drop length = cs.drop (c.position + length) := by
    rw [within.rest, List.drop_drop]
  exact ⟨rest, inside⟩

theorem skip_within (within : c.Within cs) : c.skipBlank.Within cs :=
  advance_within within (List.takeWhile_prefix isBlank).length_le

theorem skip_rest (c : Cursor) : c.skipBlank.rest = c.rest.dropWhile isBlank := by
  calc c.skipBlank.rest
    _ = (c.rest.takeWhile isBlank ++ c.rest.dropWhile isBlank).drop
        (c.rest.takeWhile isBlank).length := by rw [List.takeWhile_append_dropWhile]; rfl
    _ = c.rest.dropWhile isBlank := List.drop_left

/-- Only blanks are skipped. -/
theorem skip_blanks (within : c.Within cs) :
    BlankBetween cs c.position c.skipBlank.position := by
  refine ⟨Nat.le_add_right _ _, fun i ch from_here before there => ?_⟩
  obtain ⟨j, rfl⟩ := Nat.exists_eq_add_of_le from_here
  have skipped : j < (c.rest.takeWhile isBlank).length := Nat.lt_of_add_lt_add_left before
  have member : (c.rest.takeWhile isBlank)[j]? = some ch := by
    rw [← List.getElem?_append_left skipped, List.takeWhile_append_dropWhile, within.rest,
      List.getElem?_drop]
    exact there
  exact List.mem_takeWhile_imp (List.mem_of_getElem? member)

/-- A second skip finds no blanks. -/
theorem skip_skip (c : Cursor) : c.skipBlank.skipBlank = c.skipBlank := by
  have none : c.skipBlank.rest.takeWhile isBlank = [] := by
    rw [skip_rest]
    cases behind : c.rest.dropWhile isBlank with
    | nil => rfl
    | cons first rest =>
      have ink : isBlank first = false := (run_stops isBlank c.rest).2 first (by rw [behind]; rfl)
      rw [List.takeWhile_cons_of_neg (by simp [ink])]
  rw [skipBlank, none]
  rfl

/-- One call keeps the cursor inside the text and moves it as the rules say. -/
theorem next_moves (within : c.Within cs) :
    c.next.2.Within cs ∧ Moves cs c.position c.next.1 c.next.2.position := by
  have skipped := skip_blanks within
  have stands := skip_within within
  unfold next
  dsimp only
  cases text : c.skipBlank.rest with
  | nil =>
    have ended := rest_length stands
    rw [text, List.length_nil, Nat.add_zero] at ended
    rw [ended] at skipped ⊢
    exact ⟨stands, .finish skipped⟩
  | cons first rest =>
    dsimp only
    have whole := rest_length stands
    rw [text, List.length_cons] at whole
    have extent := read_extent c.skipBlank.position first rest
    generalize readToken c.skipBlank.position first rest = reading at extent
    have moved (inside : reading.length ≤ rest.length + 1) :
        (c.skipBlank.advance reading.length).Within cs :=
      advance_within stands (by rwa [text, List.length_cons])
    cases extent with
    | token some_taken inside =>
      have behind := moved inside
      exact ⟨behind, .token skipped (Nat.lt_add_of_pos_right some_taken) behind.inside⟩
    | unexpected =>
      refine ⟨moved (Nat.zero_le _), .unexpected skipped ?_⟩
      rw [← Nat.add_zero c.skipBlank.position, ← List.getElem?_drop, ← stands.rest, text]
      rfl
    | failure place expected some_taken inside =>
      have behind := moved inside
      rw [← place] at skipped
      refine ⟨behind, .failure skipped expected ?_ behind.inside⟩
      rw [place]
      exact Nat.lt_add_of_pos_right some_taken

/-- The outcomes behind which nothing else comes. -/
inductive Halts : Except LexError Lexeme → Prop where
  | finish : Halts (.ok (.finish p))
  | unexpected : Halts (.error (.unexpectedCharacter character q))

private theorem next_end (ended : c.rest = []) : c.next.1 = .ok (.finish c.position) := by
  obtain ⟨rest, position⟩ := c
  cases ended
  rfl

private theorem next_skipped (c : Cursor) : c.skipBlank.next = c.next := by
  simp only [next, skip_skip]

private theorem halted_stays (halts : Halts c.next.1) : c.next.2 = c.skipBlank := by
  unfold next at halts ⊢
  dsimp only at halts ⊢
  cases text : c.skipBlank.rest with
  | nil => rfl
  | cons first rest =>
    rw [text] at halts
    dsimp only at halts ⊢
    have extent := read_extent c.skipBlank.position first rest
    generalize readToken c.skipBlank.position first rest = reading at extent halts
    cases extent with
    | token =>
      change Halts (.ok (.token _)) at halts
      cases halts
    | unexpected => rfl
    | failure place expected =>
      change Halts (.error _) at halts
      cases halts with
      | unexpected => exact absurd rfl (expected _ _)

/-- The next call comes to the same outcome again. -/
theorem halted_again (halts : Halts c.next.1) : c.next.2.next = c.next := by
  rw [halted_stays halts, next_skipped]

end Cursor

/-! ## What all calls do -/

namespace Lexer
open Cursor (Halts Within)

/-- Where the lexer of a text stands after so many calls, whatever they have come to. -/
def after (text : String) : Nat → Cursor
  | 0 => .start text
  | n + 1 => (after text n).next.2

/-- What the next call comes to after so many others. -/
def call (text : String) (n : Nat) : Except LexError Lexeme :=
  (after text n).next.1

/-- The calls from a given one on find these tokens. -/
def Finds (text : String) : Nat → List PlacedToken → Prop
  | _, [] => True
  | n, t :: more => call text n = .ok (.token t) ∧ Finds text (n + 1) more

/-- From a given call on the lexer finds tokens, and then the end or an error, with which it is done.
Nothing is said of a budget. -/
inductive Tokenizes (text : String) (n : Nat) : Except LexError TokenStream → Prop where
  | finish (found : Finds text n tokens)
      (ends : call text (n + tokens.length) = .ok (.finish p)) : Tokenizes text n (.ok ⟨tokens, p⟩)
  | failure (found : Finds text n tokens) (fails : call text (n + tokens.length) = .error e) :
      Tokenizes text n (.error e)

variable {text : String} {n : Nat} {tokens : List PlacedToken}

theorem after_within (text : String) (n : Nat) : (after text n).Within text.toList := by
  induction n with
  | zero => exact Cursor.start_within text
  | succ n ih => exact (Cursor.next_moves ih).1

private theorem call_moves (text : String) (n : Nat) :
    Moves text.toList (after text n).position (call text n) (after text (n + 1)).position :=
  (Cursor.next_moves (after_within text n)).2

private theorem call_halted (halts : Halts (call text n)) (later : n ≤ m) :
    call text m = call text n := by
  have same : (after text m).next = (after text n).next := by
    induction m, later using Nat.le_induction with
    | base => rfl
    | succ m _ ih =>
      have halted : Halts (after text m).next.1 := by
        rw [ih]
        exact halts
      rw [after, Cursor.halted_again halted, ih]
  rw [call, same, call]

private theorem moves_on (moves : Moves cs p outcome q) : p ≤ q := by
  cases moves with
  | token skipped beyond => exact Nat.le_trans skipped.1 (Nat.le_of_lt beyond)
  | finish skipped => exact skipped.1
  | unexpected skipped => exact skipped.1
  | failure skipped _ beyond => exact Nat.le_trans skipped.1 (Nat.le_of_lt beyond)

private theorem after_mono (text : String) (later : n ≤ m) :
    (after text n).position ≤ (after text m).position := by
  induction m, later using Nat.le_induction with
  | base => exact le_rfl
  | succ m _ ih => exact ih.trans (moves_on (call_moves text m))

/-- A token that is found stands between the places before and behind its call. -/
theorem token_between (found : call text n = .ok (.token t)) :
    BlankBetween text.toList (after text n).position t.position ∧
      t.position < (after text (n + 1)).position := by
  have moves := call_moves text n
  rw [found] at moves
  cases moves with
  | token skipped beyond => exact ⟨skipped, beyond⟩

theorem finish_reached (ends : call text n = .ok (.finish p)) :
    p = text.length ∧ BlankBetween text.toList (after text n).position text.length := by
  have moves := call_moves text n
  rw [ends] at moves
  rw [← String.length_toList]
  generalize (after text (n + 1)).position = q at moves
  cases moves with
  | finish skipped => exact ⟨rfl, skipped⟩

/-- A token is found first, and the others behind it. -/
theorem tokenizes_cons (found : call text n = .ok (.token t))
    (others : Tokenizes text (n + 1) result) :
    Tokenizes text n (result.map fun s => ⟨t :: s.upcoming, s.finish⟩) := by
  have next (tokens : List PlacedToken) :
      call text (n + (t :: tokens).length) = call text (n + 1 + tokens.length) := by
    rw [List.length_cons, Nat.add_right_comm, Nat.add_assoc]
  cases others with
  | @finish tokens p more ends =>
    have all : Finds text n (t :: tokens) := ⟨found, more⟩
    exact .finish all ((next tokens).trans ends)
  | @failure tokens e more fails =>
    have all : Finds text n (t :: tokens) := ⟨found, more⟩
    exact .failure all ((next tokens).trans fails)

/-- A budget of as many calls as there are characters left is enough. -/
theorem scan_tokenizes (budget : Nat) :
    ∀ n, (after text n).rest.length ≤ budget →
      Tokenizes text n (TokenStream.scanFrom budget (after text n)) := by
  have nothing (n : Nat) : Finds text n [] := trivial
  induction budget with
  | zero =>
    intro n enough
    exact .finish (nothing n) (Cursor.next_end (List.length_eq_zero_iff.mp (Nat.le_zero.mp enough)))
  | succ budget ih =>
    intro n enough
    have outcome : (after text n).next = (call text n, after text (n + 1)) := rfl
    rw [TokenStream.scanFrom, outcome]
    cases found : call text n with
    | error e => exact .failure (nothing n) found
    | ok lexeme =>
      cases lexeme with
      | finish p => exact .finish (nothing n) found
      | token t =>
        have fewer : (after text (n + 1)).rest.length ≤ budget := by
          have before := Cursor.rest_length (after_within text n)
          have behind := Cursor.rest_length (after_within text (n + 1))
          obtain ⟨⟨forth, -⟩, beyond⟩ := token_between found
          omega
        exact tokenizes_cons found (ih (n + 1) fewer)

theorem of_text_tokenizes (text : String) : Tokenizes text 0 (TokenStream.ofText text) :=
  scan_tokenizes text.length 0 (Nat.le_of_eq String.length_toList)

/-! ## The tokens of a text -/

/-- Each token is found by the call in its place. -/
theorem finds_call (found : Finds text n tokens) (there : tokens[k]? = some t) :
    call text (n + k) = .ok (.token t) := by
  induction tokens generalizing n k with
  | nil => cases there
  | cons first more ih =>
    cases k with
    | zero =>
      cases there
      exact found.1
    | succ k =>
      rw [Nat.add_comm k, ← Nat.add_assoc]
      exact ih found.2 there

/-- Every token takes a character. -/
theorem finds_length (found : Finds text n tokens) :
    (after text n).position + tokens.length ≤ (after text (n + tokens.length)).position := by
  induction tokens generalizing n with
  | nil => exact le_rfl
  | cons first more ih =>
    have others := ih found.2
    obtain ⟨⟨forth, -⟩, beyond⟩ := token_between found.1
    rw [List.length_cons, Nat.add_comm more.length, ← Nat.add_assoc n]
    omega

/-- The tokens stand one behind the other, and before every place that the lexer comes to later. -/
theorem finds_ascending (found : Finds text n tokens)
    (beyond : (after text (n + tokens.length)).position ≤ finish) :
    (tokens.map PlacedToken.position ++ [finish]).Pairwise (· < ·) := by
  induction tokens generalizing n with
  | nil => exact List.pairwise_singleton ..
  | cons first more ih =>
    rw [List.length_cons, Nat.add_comm more.length, ← Nat.add_assoc] at beyond
    refine .cons (fun p member => ?_) (ih found.2 beyond)
    refine Nat.lt_of_lt_of_le (token_between found.1).2 ?_
    rcases List.mem_append.mp member with listed | last
    · obtain ⟨t, among, rfl⟩ := List.mem_map.mp listed
      obtain ⟨k, there⟩ := List.getElem?_of_mem among
      exact (after_mono text (Nat.le_add_right _ k)).trans
        (token_between (finds_call found.2 there)).1.1
    · rw [List.mem_singleton.mp last]
      exact (after_mono text (Nat.le_add_right _ _)).trans beyond

private theorem not_between (there : text.toList[i]? = some c) (ink : isBlank c = false)
    (between : BlankBetween text.toList p q) (from_here : p ≤ i) : q ≤ i := by
  by_contra before
  rw [between.2 i c from_here (Nat.not_le.mp before) there] at ink
  cases ink

/-- A character that is not blank is inside a token, if the lexer passes over it. -/
theorem finds_covers (found : Finds text n tokens) (there : text.toList[i]? = some c)
    (ink : isBlank c = false) (ahead : (after text n).position ≤ i)
    (passed : i < (after text (n + tokens.length)).position) :
    ∃ k t, tokens[k]? = some t ∧ t.position ≤ i ∧ i < (after text (n + k + 1)).position := by
  induction tokens generalizing n with
  | nil => exact absurd passed (Nat.not_lt.mpr ahead)
  | cons first more ih =>
    by_cases inside : i < (after text (n + 1)).position
    · exact ⟨0, first, rfl, not_between there ink (token_between found.1).1 ahead, inside⟩
    · rw [List.length_cons, Nat.add_comm more.length, ← Nat.add_assoc] at passed
      obtain ⟨k, t, listed, reached, beyond⟩ := ih found.2 (Nat.not_lt.mp inside) passed
      refine ⟨k + 1, t, listed, reached, ?_⟩
      rwa [Nat.add_comm k, ← Nat.add_assoc]

/-- A token does not begin before the tokens of earlier calls end. -/
theorem finds_apart (found : Finds text 0 tokens) (later : tokens[l]? = some u)
    (before : i < (after text (k + 1)).position) (reached : u.position ≤ i) : l ≤ k := by
  by_contra behind
  have forth := (token_between (finds_call found later)).1.1
  have kept := after_mono text (Nat.succ_le_of_lt (Nat.not_le.mp behind))
  rw [Nat.zero_add] at forth
  exact absurd (kept.trans (forth.trans reached)) (Nat.not_le.mpr before)

/-- Each call leaves the lexer inside the text and passes over nothing but blanks before what it
finds; once it has met the end of the text or an unexpected character, every later call finds the same.
Splitting a text into tokens ends, since a budget of its length is enough for the calls that this
takes. Then there are no more tokens than characters, they stand one behind the other, and every
character that is not blank is inside exactly one of them. -/
theorem calls_tile (text : String) :
    (∀ n, (after text n).Within text.toList ∧
      Moves text.toList (after text n).position (call text n) (after text (n + 1)).position ∧
      (Halts (call text n) → ∀ m, n ≤ m → call text m = call text n)) ∧
    Tokenizes text 0 (TokenStream.ofText text) ∧
    ∀ s, TokenStream.ofText text = .ok s →
      s.upcoming.length ≤ text.length ∧ s.finish = text.length ∧
      (s.upcoming.map PlacedToken.position ++ [s.finish]).Pairwise (· < ·) ∧
      ∀ i c, text.toList[i]? = some c → isBlank c = false →
        ∃! k, ∃ t, s.upcoming[k]? = some t ∧ t.position ≤ i ∧ i < (after text (k + 1)).position := by
  refine ⟨fun n => ⟨after_within text n, call_moves text n, fun halts m later => ?_⟩,
    of_text_tokenizes text, fun s lexed => ?_⟩
  · exact call_halted halts later
  · have tokenizes := of_text_tokenizes text
    rw [lexed] at tokenizes
    cases tokenizes with
    | @finish tokens p found ends =>
      obtain ⟨rfl, blanks⟩ := finish_reached ends
      have few := Nat.le_of_add_left_le (finds_length found)
      refine ⟨few.trans blanks.1, rfl, finds_ascending found blanks.1, fun i c there ink => ?_⟩
      have passed : i < (after text (0 + tokens.length)).position := by
        by_contra behind
        have outside := not_between there ink blanks (Nat.not_lt.mp behind)
        rw [← String.length_toList] at outside
        rw [List.getElem?_eq_none outside] at there
        cases there
      obtain ⟨k, t, listed, reached, before⟩ :=
        finds_covers found there ink (Nat.zero_le i) passed
      rw [Nat.zero_add] at before
      refine ⟨k, ⟨t, listed, reached, before⟩, ?_⟩
      rintro l ⟨u, other, reaches, beyond⟩
      exact Nat.le_antisymm (finds_apart found other before reaches)
        (finds_apart found listed beyond reached)

end Lexer

end JsonQuery
