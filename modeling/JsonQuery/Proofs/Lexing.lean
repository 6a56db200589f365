import Mathlib
import JsonQuery.Proofs.StreamReaders
import JsonQuery.Token.Scan

/-! Which tokens a text splits into, as a relation between characters and tokens. It mentions no
offset and no budget, so that texts can be put together: what stands behind a text matters to its
tokens only where it could extend one of them. -/
namespace JsonQuery

/-- The next character, if there is one, does not go on with a run of such characters. -/
def Stops (inside : Char → Bool) (behind : List Char) : Prop :=
  ∀ c, behind.head? = some c → inside c = false

/-- An unquoted identifier. -/
def IsName (cs : List Char) : Prop :=
  (∃ c rest, cs = c :: rest ∧ isNameStart c = true) ∧ ∀ c ∈ cs, isNamePart c = true

/-- Characters that a delimiter may enclose: a backslash takes the next character with it, and the
delimiter does not stand alone. -/
inductive Enclosed (close : Char) : List Char → Prop where
  | nil : Enclosed close []
  | escape (others : Enclosed close rest) : Enclosed close ('\\' :: escaped :: rest)
  | other (noClose : c ≠ close) (noEscape : c ≠ '\\') (others : Enclosed close rest) :
      Enclosed close (c :: rest)

/-- The characters spell the token where `behind` follows them. -/
inductive Spells : List Char → Token → List Char → Prop where
  | symbol (found : symbol? (s.text.toList ++ behind) = some s) :
      Spells s.text.toList (.symbol s) behind
  | delimited (enclosed : Enclosed what.delimiter inside)
      (denotes : ∀ position, delimitedToken what position inside = .ok t) :
      Spells (what.delimiter :: (inside ++ [what.delimiter])) t behind
  | number (nonempty : digits ≠ []) (digital : ∀ c ∈ digits, c.isDigit = true)
      (stops : Stops Char.isDigit behind)
      (fits : toInt64? (signed negative (digitsValue digits)) = some n) :
      Spells (if negative then '-' :: digits else digits) (.number n) behind
  | identifier (name : IsName cs) (stops : Stops isNamePart behind)
      (noCall : opensCall behind = false) :
      Spells cs (.identifier (String.ofList cs)) behind
  | functionName (name : IsName cs) (stops : Stops isNamePart behind)
      (call : opensCall behind = true) :
      Spells cs (.functionName (String.ofList cs)) behind

/-- The characters split into these tokens. -/
inductive Lexes : List Char → List Token → Prop where
  | nil : Lexes [] []
  | blank (blank : isBlank c = true) (others : Lexes cs tokens) : Lexes (c :: cs) tokens
  | token (spells : Spells text t behind) (others : Lexes behind tokens) :
      Lexes (text ++ behind) (t :: tokens)

/-- A run of characters ends where the next one stops it. -/
theorem run_exact {inside : Char → Bool} {run behind : List Char} (all : ∀ c ∈ run, inside c = true)
    (stops : Stops inside behind) :
    (run ++ behind).takeWhile inside = run ∧ (run ++ behind).dropWhile inside = behind := by
  rw [List.takeWhile_append_of_pos all, List.dropWhile_append_of_pos all]
  cases behind with
  | nil => simp
  | cons c behind => simp [stops c rfl]

/-- Every text is a run of such characters and something that stops it. -/
theorem run_stops (inside : Char → Bool) (cs : List Char) :
    (∀ c ∈ cs.takeWhile inside, inside c = true) ∧ Stops inside (cs.dropWhile inside) := by
  constructor
  · intro c member
    exact List.mem_takeWhile_imp member
  · intro c head
    have nonempty : cs.dropWhile inside ≠ [] := by
      intro empty
      rw [empty] at head
      cases head
    have first := List.head_dropWhile_not inside nonempty
    rw [List.head?_eq_some_head nonempty] at head
    cases head
    exact first

section Symbols

/-- Characters that begin a token other than a symbol, or stand inside a name or a number. -/
def isTextual (c : Char) : Bool :=
  isNamePart c || c == '-' || c == '"' || c == '\'' || c == '\x60'

theorem symbol_spelled (found : symbol? cs = some s) : ∃ behind, cs = s.text.toList ++ behind := by
  unfold symbol? at found
  split at found <;> cases found <;> exact ⟨_, rfl⟩

theorem symbol_first (s : Symbol) :
    ∃ first others, s.text.toList = first :: others ∧ isTextual first = false ∧
      isBlank first = false := by
  cases s with
  | comparator op => cases op <;> exact ⟨_, _, rfl, by decide, by decide⟩
  | _ => exact ⟨_, _, rfl, by decide, by decide⟩

private theorem textual_no_symbol (textual : isTextual c = true) (rest : List Char) :
    symbol? (c :: rest) = none := by
  cases found : symbol? (c :: rest) with
  | none => rfl
  | some s =>
    obtain ⟨behind, same⟩ := symbol_spelled found
    obtain ⟨first, others, spelled, other, -⟩ := symbol_first s
    rw [spelled] at same
    obtain rfl : c = first := (List.cons.inj same).1
    rw [textual] at other
    cases other

/-- A symbol is decided by its own characters and the next. -/
theorem symbol_more (found : symbol? (s.text.toList ++ d :: behind) = some s)
    (others : List Char) : symbol? (s.text.toList ++ d :: others) = some s := by
  cases s with
  | leftBracket =>
    by_cases flatten : d = ']'
    · subst flatten
      cases found
    · by_cases filter : d = '?'
      · subst filter
        cases found
      · simp [Symbol.text, symbol?, flatten, filter]
  | pipe =>
    by_cases double : d = '|'
    · subst double
      cases found
    · simp [Symbol.text, symbol?, double]
  | reference =>
    by_cases double : d = '&'
    · subst double
      cases found
    · simp [Symbol.text, symbol?, double]
  | not =>
    by_cases equal : d = '='
    · subst equal
      cases found
    · simp [Symbol.text, symbol?, equal]
  | comparator op =>
    cases op with
    | less | greater =>
      by_cases equal : d = '='
      · subst equal
        cases found
      · simp [Symbol.text, Comparator.text, symbol?, equal]
    | _ => rfl
  | _ => rfl

end Symbols

section Delimiters

theorem delimited_enclosed (found : delimitedText? close cs = some inside) :
    Enclosed close inside ∧ ∃ behind, cs = inside ++ close :: behind := by
  fun_induction delimitedText? close cs generalizing inside with
  | case1 => cases found
  | case2 =>
    cases found
    exact ⟨.nil, _, rfl⟩
  | case3 => cases found
  | case4 _ escaped rest ih =>
    obtain ⟨text, ended, rfl⟩ := Option.map_eq_some_iff.mp found
    obtain ⟨enclosed, behind, rfl⟩ := ih ended
    exact ⟨.escape enclosed, behind, rfl⟩
  | case5 c rest noClose noEscape ih =>
    obtain ⟨text, ended, rfl⟩ := Option.map_eq_some_iff.mp found
    obtain ⟨enclosed, behind, rfl⟩ := ih ended
    exact ⟨.other noClose noEscape enclosed, behind, rfl⟩

theorem enclosed_delimited (enclosed : Enclosed close inside) (noEscape : close ≠ '\\')
    (behind : List Char) : delimitedText? close (inside ++ close :: behind) = some inside := by
  induction enclosed with
  | nil =>
    rw [List.nil_append, delimitedText?.eq_def]
    simp
  | escape others ih => simp [delimitedText?, noEscape.symm, ih]
  | other noClose noEscape others ih =>
    rw [List.cons_append, delimitedText?.eq_def]
    simp [noClose, noEscape, ih]

theorem delimiter_no_escape (what : Delimited) : what.delimiter ≠ '\\' := by
  cases what <;> decide

/-- What the text between delimiters denotes does not depend on where it stands. -/
theorem delimited_token_anywhere (read : delimitedToken what position inside = .ok t)
    (other : Nat) : delimitedToken what other inside = .ok t := by
  unfold delimitedToken at read ⊢
  cases what with
  | quotedIdentifier | literal =>
    dsimp only at read ⊢
    split at read
    · exact read
    · cases read
  | rawString => exact read

end Delimiters

section Classes

private theorem start_code (start : isNameStart c = true) :
    c.toNat = 95 ∨ (65 ≤ c.toNat ∧ c.toNat ≤ 90) ∨ (97 ≤ c.toNat ∧ c.toNat ≤ 122) := by
  simp only [isNameStart, Char.isAlpha, Char.isUpper, Char.isLower, Bool.or_eq_true,
    Bool.and_eq_true, decide_eq_true_eq, beq_iff_eq, UInt32.le_iff_toNat_le, ge_iff_le] at start
  rcases start with (upper | lower) | rfl
  · exact .inr (.inl upper)
  · exact .inr (.inr lower)
  · exact .inl rfl

theorem part_cases : isNamePart c = true ↔ isNameStart c = true ∨ c.isDigit = true := by
  simp only [isNamePart, isNameStart, Char.isAlphanum, Bool.or_eq_true]
  tauto

theorem part_not_blank (part : isNamePart c = true) : isBlank c = false := by
  have code : c.toNat = 95 ∨ (48 ≤ c.toNat ∧ c.toNat ≤ 57) ∨ (65 ≤ c.toNat ∧ c.toNat ≤ 90) ∨
      (97 ≤ c.toNat ∧ c.toNat ≤ 122) := by
    rcases part_cases.mp part with start | digit
    · have code := start_code start
      omega
    · exact .inr (.inl (Char.isDigit_iff_toNat.mp digit))
  simp only [isBlank, Bool.or_eq_false_iff, Bool.and_eq_false_iff, decide_eq_false_iff_not,
    beq_eq_false_iff_ne]
  omega

private theorem start_no_digit (start : isNameStart c = true) : c.isDigit = false := by
  cases digit : c.isDigit with
  | false => rfl
  | true =>
    have code := start_code start
    have digits : 48 ≤ c.toNat ∧ c.toNat ≤ 57 := Char.isDigit_iff_toNat.mp digit
    omega

end Classes

section Readings

theorem read_symbol (found : symbol? (first :: rest) = some s) (position : Nat) :
    readToken position first rest = ⟨.ok (.symbol s), s.text.length⟩ := by
  simp only [readToken, found]

theorem read_delimited (what : Delimited) (position : Nat) (rest : List Char) :
    readToken position what.delimiter rest = readDelimited what position rest := by
  cases what <;> rfl

theorem read_negative (digit : d.isDigit = true) (position : Nat) (rest : List Char) :
    readToken position '-' (d :: rest) = readNumber position true (d :: rest) := by
  simp [readToken, textual_no_symbol (c := '-') (by decide), digit]

theorem read_digit (digit : first.isDigit = true) (position : Nat) (rest : List Char) :
    readToken position first rest = readNumber position false (first :: rest) := by
  have textual : isTextual first = true := by
    simp [isTextual, part_cases.mpr (.inr digit)]
  unfold readToken
  rw [textual_no_symbol textual]
  have quoted (close : Char) (other : close.isDigit = false) : first ≠ close := by
    rintro rfl
    rw [digit] at other
    cases other
  simp [quoted '"' rfl, quoted '\'' rfl, quoted '\x60' rfl, quoted '-' rfl, digit]

private theorem read_name (start : isNameStart first = true) (position : Nat) (rest : List Char) :
    readToken position first rest = readName (first :: rest) := by
  have textual : isTextual first = true := by
    simp [isTextual, part_cases.mpr (.inl start)]
  unfold readToken
  rw [textual_no_symbol textual]
  have quoted (close : Char) (other : isNameStart close = false) : first ≠ close := by
    rintro rfl
    rw [start] at other
    cases other
  simp [quoted '"' rfl, quoted '\'' rfl, quoted '\x60' rfl, quoted '-' rfl, start,
    start_no_digit start]

/-- A reading that succeeds is of one of these kinds. -/
theorem read_cases (read : readToken position first rest = ⟨.ok t, length⟩) :
    (∃ s, symbol? (first :: rest) = some s) ∨ (∃ what : Delimited, first = what.delimiter) ∨
      (first = '-' ∧ ∃ d others, rest = d :: others ∧ d.isDigit = true) ∨ first.isDigit = true ∨
        isNameStart first = true := by
  unfold readToken at read
  split at read
  · rename_i s found
    exact .inl ⟨s, found⟩
  · split_ifs at read with quoted raw literal negative digit start
    · exact .inr (.inl ⟨.quotedIdentifier, quoted⟩)
    · exact .inr (.inl ⟨.rawString, raw⟩)
    · exact .inr (.inl ⟨.literal, literal⟩)
    · obtain ⟨minus, digit⟩ := negative
      cases rest with
      | nil => cases digit
      | cons d others => exact .inr (.inr (.inl ⟨minus, d, others, rfl, digit⟩))
    · exact .inr (.inr (.inr (.inl digit)))
    · exact .inr (.inr (.inr (.inr start)))
    · cases read

/-- A token is read from the characters that spell it, at every offset. -/
theorem spells_read (spells : Spells text t behind) :
    ∃ first others, text = first :: others ∧ isBlank first = false ∧
      ∀ position, readToken position first (others ++ behind) = ⟨.ok t, text.length⟩ := by
  cases spells with
  | symbol found =>
    rename_i s
    obtain ⟨first, others, spelled, -, ink⟩ := symbol_first s
    have length : s.text.length = (first :: others).length := by
      rw [← spelled, String.length_toList]
    rw [spelled, List.cons_append] at found
    rw [spelled]
    refine ⟨first, others, rfl, ink, fun position => ?_⟩
    rw [read_symbol found, length]
  | delimited enclosed denotes =>
    rename_i inside what
    refine ⟨what.delimiter, _, rfl, by cases what <;> decide, fun position => ?_⟩
    rw [read_delimited, readDelimited, List.append_assoc, List.singleton_append,
      enclosed_delimited enclosed (delimiter_no_escape what)]
    simp [denotes position]
  | @number digits _ negative n nonempty digital stops fits =>
    obtain ⟨d, others, rfl⟩ := List.exists_cons_of_ne_nil nonempty
    have digit : d.isDigit = true := digital d List.mem_cons_self
    have run := (run_exact digital stops).1
    cases negative with
    | true =>
      refine ⟨'-', d :: others, rfl, by decide, fun position => ?_⟩
      rw [List.cons_append, read_negative digit, readNumber, ← List.cons_append, run]
      simp [fits]
    | false =>
      refine ⟨d, others, rfl, part_not_blank (part_cases.mpr (.inr digit)), fun position => ?_⟩
      rw [read_digit digit, readNumber, ← List.cons_append, run]
      simp [fits]
  | identifier name stops noCall =>
    obtain ⟨⟨first, others, rfl, start⟩, parts⟩ := name
    obtain ⟨run, dropped⟩ := run_exact parts stops
    refine ⟨first, others, rfl, part_not_blank (part_cases.mpr (.inl start)), fun position => ?_⟩
    rw [read_name start, readName, ← List.cons_append, run, dropped]
    simp [noCall]
  | functionName name stops call =>
    obtain ⟨⟨first, others, rfl, start⟩, parts⟩ := name
    obtain ⟨run, dropped⟩ := run_exact parts stops
    refine ⟨first, others, rfl, part_not_blank (part_cases.mpr (.inl start)), fun position => ?_⟩
    rw [read_name start, readName, ← List.cons_append, run, dropped]
    simp [call]

private theorem read_number_spells (negative : Bool) (digit : d.isDigit = true)
    (read : readNumber position negative (d :: rest) = ⟨.ok t, length⟩) :
    ∃ text behind, (if negative then '-' :: d :: rest else d :: rest) = text ++ behind ∧
      length = text.length ∧ Spells text t behind := by
  obtain ⟨digital, stops⟩ := run_stops Char.isDigit (d :: rest)
  have nonempty : (d :: rest).takeWhile Char.isDigit ≠ [] := by
    simp [digit]
  unfold readNumber at read
  simp only [Reading.mk.injEq] at read
  obtain ⟨outcome, rfl⟩ := read
  split at outcome
  · rename_i n fits
    cases outcome
    refine ⟨_, (d :: rest).dropWhile Char.isDigit, ?_, rfl, .number nonempty digital stops fits⟩
    cases negative <;> simp only [if_pos, Bool.false_eq_true, if_neg, not_false_eq_true,
      List.cons_append, List.takeWhile_append_dropWhile]
  · cases outcome

private theorem read_name_spells (start : isNameStart c = true)
    (read : readName (c :: rest) = ⟨.ok t, length⟩) :
    ∃ text behind, c :: rest = text ++ behind ∧ length = text.length ∧ Spells text t behind := by
  obtain ⟨parts, stops⟩ := run_stops isNamePart (c :: rest)
  have name : IsName ((c :: rest).takeWhile isNamePart) := by
    refine ⟨⟨c, rest.takeWhile isNamePart, ?_, start⟩, parts⟩
    simp [part_cases.mpr (.inl start)]
  unfold readName at read
  simp only [Reading.mk.injEq, Except.ok.injEq] at read
  obtain ⟨outcome, rfl⟩ := read
  refine ⟨_, (c :: rest).dropWhile isNamePart, List.takeWhile_append_dropWhile.symm, rfl, ?_⟩
  cases call : opensCall ((c :: rest).dropWhile isNamePart) with
  | true =>
    rw [call, if_pos rfl] at outcome
    rw [← outcome]
    exact .functionName name stops call
  | false =>
    rw [call, if_neg Bool.false_ne_true] at outcome
    rw [← outcome]
    exact .identifier name stops call

private theorem read_delimited_spells
    (read : readDelimited what position rest = ⟨.ok t, length⟩) :
    ∃ text behind, what.delimiter :: rest = text ++ behind ∧ length = text.length ∧
      Spells text t behind := by
  unfold readDelimited at read
  split at read
  · rename_i inside found
    obtain ⟨enclosed, behind, rfl⟩ := delimited_enclosed found
    simp only [Reading.mk.injEq] at read
    obtain ⟨denotes, rfl⟩ := read
    refine ⟨what.delimiter :: (inside ++ [what.delimiter]), behind, by simp, by simp, ?_⟩
    exact .delimited enclosed (delimited_token_anywhere denotes)
  · cases read

/-- What a token is read from spells it. -/
theorem read_spells (read : readToken position first rest = ⟨.ok t, length⟩) :
    ∃ text behind, first :: rest = text ++ behind ∧ length = text.length ∧
      Spells text t behind := by
  rcases read_cases read with
    ⟨s, found⟩ | ⟨what, rfl⟩ | ⟨rfl, d, others, rfl, digit⟩ | digit | start
  · rw [read_symbol found] at read
    cases read
    obtain ⟨behind, same⟩ := symbol_spelled found
    refine ⟨s.text.toList, behind, same, String.length_toList.symm, ?_⟩
    rw [same] at found
    exact .symbol found
  · rw [read_delimited] at read
    exact read_delimited_spells read
  · rw [read_negative digit] at read
    exact read_number_spells true digit read
  · rw [read_digit digit] at read
    exact read_number_spells false digit read
  · rw [read_name start] at read
    exact read_name_spells start read

end Readings

section Scanning
open TokenStream (scanFrom)

private theorem next_blank (blank : isBlank c = true) (cs : List Char) (position : Nat) :
    Cursor.next ⟨c :: cs, position⟩ = Cursor.next ⟨cs, position + 1⟩ := by
  have moved : Cursor.skipBlank ⟨c :: cs, position⟩ = Cursor.skipBlank ⟨cs, position + 1⟩ := by
    simp only [Cursor.skipBlank, Cursor.advance, List.takeWhile_cons_of_pos blank, List.length_cons,
      List.drop_succ_cons, Cursor.mk.injEq, true_and]
    omega
  simp only [Cursor.next, moved]

theorem next_ink (ink : isBlank first = false) (rest : List Char) (position : Nat) :
    Cursor.next ⟨first :: rest, position⟩ =
      let reading := readToken position first rest
      (reading.outcome.map fun token => .token ⟨token, position⟩,
        Cursor.advance ⟨first :: rest, position⟩ reading.length) := by
  have stays : Cursor.skipBlank ⟨first :: rest, position⟩ = ⟨first :: rest, position⟩ := by
    simp [Cursor.skipBlank, Cursor.advance, ink]
  simp only [Cursor.next, stays]

theorem scan_end (budget position : Nat) :
    scanFrom budget ⟨[], position⟩ = .ok ⟨[], position⟩ := by
  cases budget <;> rfl

theorem scan_blank (blank : isBlank c = true) (budget : Nat) (cs : List Char) (position : Nat) :
    scanFrom (budget + 1) ⟨c :: cs, position⟩ = scanFrom (budget + 1) ⟨cs, position + 1⟩ := by
  simp only [scanFrom, next_blank blank]

theorem scan_token (spells : Spells text t behind) (budget position : Nat) :
    scanFrom (budget + 1) ⟨text ++ behind, position⟩ = (do
      let stream ← scanFrom budget ⟨behind, position + text.length⟩
      return ⟨⟨t, position⟩ :: stream.upcoming, stream.finish⟩) := by
  obtain ⟨first, others, rfl, ink, read⟩ := spells_read spells
  rw [List.cons_append, scanFrom, next_ink ink, read position]
  simp [Except.map, Cursor.advance]

/-- Characters that split into tokens are scanned into these, wherever they stand. -/
theorem lexes_scan (lexes : Lexes cs tokens) : ∀ budget position, cs.length ≤ budget →
    ∃ s, scanFrom budget ⟨cs, position⟩ = .ok s ∧ s.tokens = tokens := by
  induction lexes with
  | nil =>
    intro budget position _
    exact ⟨_, scan_end budget position, rfl⟩
  | blank blank others ih =>
    intro budget position enough
    obtain ⟨budget, rfl⟩ := Nat.exists_eq_add_one.mpr (Nat.zero_lt_of_lt enough)
    rw [scan_blank blank]
    exact ih _ _ (Nat.le_of_succ_le enough)
  | token spells others ih =>
    intro budget position enough
    obtain ⟨first, rest, rfl, -⟩ := spells_read spells
    simp only [List.cons_append, List.length_cons, List.length_append] at enough
    obtain ⟨budget, rfl⟩ := Nat.exists_eq_add_one.mpr (Nat.zero_lt_of_lt enough)
    obtain ⟨s, scanned, same⟩ := ih budget (position + (first :: rest).length) (by omega)
    rw [scan_token spells, scanned]
    exact ⟨_, rfl, by simpa [TokenStream.tokens] using same⟩

/-- Whatever is scanned, the characters split into these tokens. -/
theorem scan_lexes (budget : Nat) : ∀ cs position, cs.length ≤ budget →
    scanFrom budget ⟨cs, position⟩ = .ok s → Lexes cs s.tokens := by
  induction budget generalizing s with
  | zero =>
    intro cs position enough scanned
    obtain rfl := List.length_eq_zero_iff.mp (Nat.le_zero.mp enough)
    cases scanned
    exact .nil
  | succ budget ih =>
    intro cs
    induction cs with
    | nil =>
      intro position _ scanned
      cases scanned
      exact .nil
    | cons c cs inner =>
      intro position enough scanned
      cases blank : isBlank c with
      | true =>
        rw [scan_blank blank] at scanned
        exact .blank blank (inner _ (Nat.le_of_succ_le enough) scanned)
      | false =>
        rcases outcome : readToken position c cs with ⟨failure | t, length⟩
        · rw [scanFrom, next_ink blank, outcome] at scanned
          cases scanned
        · obtain ⟨text, behind, same, -, spells⟩ := read_spells outcome
          rw [same] at scanned enough ⊢
          rw [scan_token spells] at scanned
          obtain ⟨first, others, rfl, -⟩ := spells_read spells
          simp only [List.cons_append, List.length_cons, List.length_append] at enough
          cases rest : scanFrom budget ⟨behind, position + (first :: others).length⟩ with
          | error e =>
            rw [rest] at scanned
            cases scanned
          | ok stream =>
            rw [rest] at scanned
            cases scanned
            exact .token spells (ih behind _ (by omega) rest)

theorem text_lexes (lexed : TokenStream.ofText text = .ok s) : Lexes text.toList s.tokens :=
  scan_lexes _ _ _ (Nat.le_of_eq String.length_toList) lexed

theorem lexes_text (lexes : Lexes text.toList tokens) :
    ∃ s, TokenStream.ofText text = .ok s ∧ s.tokens = tokens :=
  lexes_scan lexes _ _ (Nat.le_of_eq String.length_toList)

end Scanning

section Seams

/-- The token does not go on with these characters. -/
def Token.Apart (more : List Char) : Token → Prop
  | .identifier _ => Stops isNamePart more ∧ opensCall more = false
  | .number _ => Stops Char.isDigit more
  | .symbol s => symbol? (s.text.toList ++ more) = some s
  | _ => True

theorem stops_append {inside : Char → Bool} (stops : Stops inside behind)
    (next : Stops inside more) :
    Stops inside (behind ++ more) := by
  cases behind with
  | nil => exact next
  | cons c behind => exact stops

/-- Only where nothing but blanks stands behind a name does it matter what is appended. -/
theorem opens_call_append (behind more : List Char) : opensCall (behind ++ more) =
    if behind.dropWhile isBlank = [] then opensCall more else opensCall behind := by
  unfold opensCall
  rw [List.dropWhile_append]
  by_cases blank : behind.dropWhile isBlank = []
  · simp [blank]
  · obtain ⟨c, rest, found⟩ := List.exists_cons_of_ne_nil blank
    simp [found]

/-- What a token is apart from may be appended behind it. -/
theorem spells_append (spells : Spells text t behind) (apart : t.Apart more) :
    Spells text t (behind ++ more) := by
  cases spells with
  | symbol found =>
    cases behind with
    | nil => exact .symbol apart
    | cons d behind => exact .symbol (symbol_more found _)
  | delimited enclosed denotes => exact .delimited enclosed denotes
  | number nonempty digital stops fits =>
    exact .number nonempty digital (stops_append stops apart) fits
  | identifier name stops noCall =>
    refine .identifier name (stops_append stops apart.1) ?_
    rw [opens_call_append]
    split_ifs
    · exact apart.2
    · exact noCall
  | functionName name stops call =>
    cases behind with
    | nil => cases call
    | cons c behind =>
      refine .functionName name stops ?_
      rw [opens_call_append]
      split_ifs with blank
      · simp [opensCall, blank] at call
      · exact call

theorem lexes_append (lexes : Lexes cs tokens) (apart : ∀ t ∈ tokens, t.Apart more)
    (others : Lexes more next) : Lexes (cs ++ more) (tokens ++ next) := by
  induction lexes with
  | nil => exact others
  | blank blank _ ih => exact .blank blank (ih apart)
  | token spells _ ih =>
    rw [List.append_assoc]
    exact .token (spells_append spells (apart _ List.mem_cons_self))
      (ih fun t member => apart t (List.mem_cons_of_mem _ member))

end Seams

end JsonQuery
