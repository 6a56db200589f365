import JsonQuery.Proofs.LexerTiling

/-! What a text has at the offset of a lexing error. Nothing that could be read as a token begins
there: there is a character that begins none, a delimiter without its partner, or an item that is
written like a token and denotes nothing. -/
namespace JsonQuery

/-- The text has, at the offset of the error, what the error says. -/
inductive LexError.Shows (cs : List Char) : LexError → Prop where
  /-- No token begins with the character. -/
  | unexpectedCharacter (there : cs.drop p = c :: rest) (ink : isBlank c = false)
      (none : ∀ text t behind, c :: rest = text ++ behind → ¬Spells text t behind) :
      Shows cs (.unexpectedCharacter c p)
  /-- No delimiter closes what this one opens. -/
  | unterminated (opens : cs.drop p = what.delimiter :: inside)
      (unclosed : ∀ text behind, Enclosed what.delimiter text →
        inside ≠ text ++ what.delimiter :: behind) :
      Shows cs (.unterminated what p)
  | invalidQuotedIdentifier (item : cs.drop p = '"' :: (inside ++ '"' :: behind))
      (enclosed : Enclosed '"' inside) (refused : Json.unquote? inside = none) :
      Shows cs (.invalidQuotedIdentifier p)
  | invalidLiteral (item : cs.drop p = '\x60' :: (inside ++ '\x60' :: behind))
      (enclosed : Enclosed '\x60' inside)
      (refused : Json.readChars? (trimBlank (unescapeLiteral inside)) = none) :
      Shows cs (.invalidLiteral p)
  /-- The number goes on as far as there are digits, and does not fit. -/
  | invalidNumber (item : cs.drop p = (if negative then '-' :: digits else digits) ++ behind)
      (nonempty : digits ≠ []) (digital : ∀ c ∈ digits, c.isDigit = true)
      (stops : Stops Char.isDigit behind)
      (refused : toInt64? (signed negative (digitsValue digits)) = none) :
      Shows cs (.invalidNumber (String.ofList (if negative then '-' :: digits else digits)) p)

/-- There is a character at the offset of such an error. -/
theorem shown_character {e : LexError} (shows : e.Shows cs) : ∃ c, cs[e.position]? = some c := by
  have first {p c rest} (there : cs.drop p = c :: rest) : cs[p]? = some c := by
    rw [← List.head?_drop, there]
    rfl
  cases shows with
  | unexpectedCharacter there => exact ⟨_, first there⟩
  | unterminated opens => exact ⟨_, first opens⟩
  | invalidQuotedIdentifier item | invalidLiteral item => exact ⟨_, first item⟩
  | @invalidNumber p negative digits behind item nonempty =>
    obtain ⟨d, others, rfl⟩ := List.exists_cons_of_ne_nil nonempty
    cases negative with
    | true => exact ⟨_, first item⟩
    | false => exact ⟨_, first item⟩

section Readings

variable {cs : List Char} {position : Nat} {first : Char} {rest : List Char}

private theorem delimited_shows (opens : cs.drop position = what.delimiter :: rest)
    (fails : readDelimited what position rest = ⟨.error e, length⟩) : e.Shows cs := by
  unfold readDelimited at fails
  split at fails
  · rename_i inside found
    obtain ⟨enclosed, behind, rfl⟩ := delimited_enclosed found
    have refused : delimitedToken what position inside = .error e := congrArg Reading.outcome fails
    unfold delimitedToken at refused
    cases what with
    | quotedIdentifier =>
      dsimp only at refused
      split at refused
      · cases refused
      · cases refused
        exact .invalidQuotedIdentifier opens enclosed ‹_›
    | rawString => cases refused
    | literal =>
      dsimp only at refused
      split at refused
      · cases refused
      · cases refused
        exact .invalidLiteral opens enclosed ‹_›
  · rename_i unclosed
    cases fails
    refine .unterminated opens fun text behind enclosed same => ?_
    rw [same, enclosed_delimited enclosed (delimiter_no_escape what)] at unclosed
    cases unclosed

private theorem number_shows (negative : Bool) (digit : d.isDigit = true)
    (there : cs.drop position = if negative then '-' :: d :: rest else d :: rest)
    (fails : readNumber position negative (d :: rest) = ⟨.error e, length⟩) : e.Shows cs := by
  obtain ⟨digital, stops⟩ := run_stops Char.isDigit (d :: rest)
  have nonempty : (d :: rest).takeWhile Char.isDigit ≠ [] := by
    simp [digit]
  have item : cs.drop position = (if negative then '-' :: (d :: rest).takeWhile Char.isDigit
      else (d :: rest).takeWhile Char.isDigit) ++ (d :: rest).dropWhile Char.isDigit := by
    rw [there]
    cases negative <;> simp only [if_pos, Bool.false_eq_true, if_neg, not_false_eq_true,
      List.cons_append, List.takeWhile_append_dropWhile]
  have refused := congrArg Reading.outcome fails
  unfold readNumber at refused
  dsimp only at refused
  split at refused
  · cases refused
  · cases refused
    exact .invalidNumber item nonempty digital stops ‹_›

/-- What begins as a delimited item or a number fails as such, and anything else at once. -/
theorem read_fails_cases (fails : readToken position first rest = ⟨.error e, length⟩) :
    (∃ what : Delimited, first = what.delimiter) ∨
      (first = '-' ∧ ∃ d others, rest = d :: others ∧ d.isDigit = true) ∨ first.isDigit = true ∨
        e = .unexpectedCharacter first position := by
  unfold readToken at fails
  split at fails
  · cases fails
  · split_ifs at fails with quoted raw literal negative digit start
    · exact .inl ⟨.quotedIdentifier, quoted⟩
    · exact .inl ⟨.rawString, raw⟩
    · exact .inl ⟨.literal, literal⟩
    · obtain ⟨minus, digit⟩ := negative
      cases rest with
      | nil => cases digit
      | cons d others => exact .inr (.inl ⟨minus, d, others, rfl, digit⟩)
    · exact .inr (.inr (.inl digit))
    · cases fails
    · cases fails
      exact .inr (.inr (.inr rfl))

private theorem read_shows (there : cs.drop position = first :: rest) (ink : isBlank first = false)
    (fails : readToken position first rest = ⟨.error e, length⟩) : e.Shows cs := by
  rcases read_fails_cases fails with ⟨what, rfl⟩ | ⟨rfl, d, others, rfl, digit⟩ | digit | rfl
  · rw [read_delimited] at fails
    exact delimited_shows there fails
  · rw [read_negative digit] at fails
    exact number_shows true digit there fails
  · rw [read_digit digit] at fails
    exact number_shows false digit there fails
  · refine .unexpectedCharacter there ink fun text t behind same spells => ?_
    obtain ⟨c, others, rfl, -, read⟩ := spells_read spells
    rw [List.cons_append] at same
    obtain ⟨rfl, rfl⟩ := List.cons.inj same
    rw [read position] at fails
    cases fails

end Readings

/-- A call that fails does so at the first character that is not blank. -/
theorem Cursor.next_shows {c : Cursor} (within : c.Within cs) (fails : c.next.1 = .error e) :
    e.Shows cs := by
  have stands := skip_within within
  have ink := (run_stops isBlank c.rest).2
  rw [← skip_rest] at ink
  unfold next at fails
  dsimp only at fails
  cases text : c.skipBlank.rest with
  | nil =>
    rw [text] at fails
    cases fails
  | cons first rest =>
    rw [text] at fails ink
    dsimp only at fails
    rcases read : readToken c.skipBlank.position first rest with ⟨failure | t, length⟩
    · rw [read] at fails
      cases fails
      exact read_shows (stands.rest.symm.trans text) (ink first rfl) read
    · rw [read] at fails
      cases fails

/-- An error of the lexer says what the text has at its offset. -/
theorem of_text_shows (failed : TokenStream.ofText text = .error e) : e.Shows text.toList := by
  have tokenizes := Lexer.of_text_tokenizes text
  rw [failed] at tokenizes
  cases tokenizes with
  | failure found fails => exact Cursor.next_shows (Lexer.after_within text _) fails

end JsonQuery
