import JsonQuery.Json.Write
import JsonQuery.Proofs.Lexing

/-! A text for every token, from which the token is read again. Names, numbers and symbols stand as
they are, and what is delimited has its delimiters escaped. With a space between them, the texts of
several tokens are read as these tokens, as long as the names of functions are the names in front of
parentheses. -/
namespace JsonQuery

/-- A raw string with its two escapes. -/
def escapeRaw (cs : List Char) : List Char :=
  cs.flatMap fun c => if c = '\'' ∨ c = '\\' then ['\\', c] else [c]

/-- A literal with its one escape. -/
def escapeLiteral (cs : List Char) : List Char :=
  cs.flatMap fun c => if c = '\x60' then ['\\', c] else [c]

/-- A text of the token. -/
def Token.written : Token → List Char
  | .identifier name => name.toList
  | .quotedIdentifier name => Json.writeString name.toList
  | .functionName name => name.toList
  | .rawString text => '\'' :: (escapeRaw text.toList ++ ['\''])
  | .literal value => '\x60' :: (escapeLiteral (Json.writeValue .none 0 value) ++ ['\x60'])
  | .number n => intDigits n.toInt
  | .symbol s => s.text.toList

/-- The texts of the tokens with one space between them. -/
def spaced : List Token → List Char
  | [] => []
  | [t] => t.written
  | t :: more => t.written ++ ' ' :: spaced more

theorem enclosed_append (first : Enclosed close front) (second : Enclosed close back) :
    Enclosed close (front ++ back) := by
  induction first with
  | nil => exact second
  | escape _ ih => exact .escape ih
  | other noClose noEscape _ ih => exact .other noClose noEscape ih

private theorem enclosed_flatMap {f : Char → List Char} (each : ∀ c, Enclosed close (f c))
    (cs : List Char) : Enclosed close (cs.flatMap f) := by
  induction cs with
  | nil => exact .nil
  | cons c cs ih => exact enclosed_append (each c) ih

private theorem raw_enclosed (cs : List Char) : Enclosed '\'' (escapeRaw cs) := by
  refine enclosed_flatMap (fun c => ?_) cs
  split_ifs with special
  · exact .escape .nil
  · exact .other (fun same => special (.inl same)) (fun same => special (.inr same)) .nil

private theorem unescape_raw (cs : List Char) : unescapeRaw (escapeRaw cs) = cs := by
  induction cs with
  | nil => rfl
  | cons c cs ih =>
    have step : escapeRaw (c :: cs) =
        (if c = '\'' ∨ c = '\\' then ['\\', c] else [c]) ++ escapeRaw cs := by
      simp [escapeRaw]
    rw [step]
    split_ifs with special
    · rcases special with rfl | rfl <;> simp [unescapeRaw, ih]
    · obtain ⟨noQuote, noEscape⟩ := not_or.mp special
      have other : unescapeRaw (c :: escapeRaw cs) = c :: unescapeRaw (escapeRaw cs) := by
        rw [unescapeRaw.eq_3]
        · exact fun _ same => absurd same noEscape
        · exact fun _ same => absurd same noEscape
      rw [List.singleton_append, other, ih]

namespace Json

/-- A control character is escaped by one letter or by its code. -/
theorem control_cases (control : c.toNat < 0x20) :
    (∃ letter, escapeChar c = ['\\', letter] ∧ letter ≠ 'u' ∧ simpleEscape? letter = some c) ∨
      ∃ high low, escapeChar c = ['\\', 'u', '0', '0', high, low] ∧
        codeUnit? '0' '0' high low = some c.toNat ∧ high ∉ ['"', '\\'] ∧ low ∉ ['"', '\\'] := by
  obtain ⟨n, code⟩ : ∃ n, c.toNat = n := ⟨_, rfl⟩
  obtain rfl : c = Char.ofNat n := by rw [← code, Char.ofNat_toNat]
  rw [code] at control ⊢
  clear code
  interval_cases n
  all_goals first
    | exact .inl ⟨_, rfl, by decide, rfl⟩
    | exact .inr ⟨_, _, rfl, rfl, by decide, by decide⟩

theorem escape_cases (c : Char) :
    (∃ letter, escapeChar c = ['\\', letter] ∧ letter ≠ 'u' ∧ simpleEscape? letter = some c) ∨
      (escapeChar c = [c] ∧ c ≠ '"' ∧ c ≠ '\\' ∧ 0x20 ≤ c.toNat) ∨
      ∃ high low, escapeChar c = ['\\', 'u', '0', '0', high, low] ∧ c.toNat < 0x20 ∧
        codeUnit? '0' '0' high low = some c.toNat ∧ high ∉ ['"', '\\'] ∧ low ∉ ['"', '\\'] := by
  by_cases control : c.toNat < 0x20
  · rcases control_cases control with letter | ⟨high, low, code⟩
    · exact .inl letter
    · exact .inr (.inr ⟨high, low, code.1, control, code.2⟩)
  · by_cases quote : c = '"'
    · subst quote
      exact .inl ⟨'"', rfl, by decide, rfl⟩
    · by_cases escape : c = '\\'
      · subst escape
        exact .inl ⟨'\\', rfl, by decide, rfl⟩
      · have plain := Nat.not_lt.mp control
        exact .inr (.inl ⟨by simp [escapeChar, quote, escape, plain], quote, escape, plain⟩)

private theorem escape_enclosed (cs : List Char) : Enclosed '"' (cs.flatMap escapeChar) := by
  refine enclosed_flatMap (fun c => ?_) cs
  rcases escape_cases c with ⟨letter, same, -⟩ | ⟨same, quote, escape, -⟩ |
    ⟨high, low, same, -, -, highPlain, lowPlain⟩
  · rw [same]
    exact .escape .nil
  · rw [same]
    exact .other quote escape .nil
  · rw [same]
    simp only [List.mem_cons, List.not_mem_nil, or_false, not_or] at highPlain lowPlain
    exact .escape (.other (by decide) (by decide) (.other (by decide) (by decide)
      (.other highPlain.1 highPlain.2 (.other lowPlain.1 lowPlain.2 .nil))))

/-- An escaped character is read again, whatever follows it. -/
theorem string_tail_escape (c : Char) (tail : List Char) :
    stringTail (escapeChar c ++ tail) =
      (stringTail tail).map fun (cs, rest) => (c :: cs, rest) := by
  rcases escape_cases c with ⟨letter, same, other, read⟩ | ⟨same, quote, escape, plain⟩ |
    ⟨high, low, same, control, code, -⟩
  · rw [same, List.cons_append, List.cons_append, List.nil_append, stringTail.eq_4]
    · rw [read]
      cases stringTail tail <;> rfl
    · exact fun _ _ _ _ _ u => absurd u other
  · rw [same, List.singleton_append, stringTail.eq_5]
    · have admitted : ¬(c = '\\' ∨ c.toNat < 0x20) :=
        not_or.mpr ⟨escape, Nat.not_lt.mpr plain⟩
      rw [if_neg admitted]
      cases stringTail tail <;> rfl
    · exact quote
    · exact fun _ _ _ _ _ same => absurd same escape
    · exact fun _ _ same => absurd same escape
  · rw [same]
    have single : isHighSurrogate c.toNat = false ∧ isLowSurrogate c.toNat = false := by
      simp only [isHighSurrogate, isLowSurrogate, Bool.and_eq_false_iff, decide_eq_false_iff_not]
      omega
    simp only [List.cons_append, List.nil_append, stringTail, code, single, Char.ofNat_toNat]
    cases stringTail tail <;> rfl

theorem string_tail_written (cs rest : List Char) :
    stringTail (cs.flatMap escapeChar ++ '"' :: rest) = some (cs, rest) := by
  induction cs with
  | nil => simp [stringTail]
  | cons c cs ih => rw [List.flatMap_cons, List.append_assoc, string_tail_escape, ih]; rfl

/-- A written string is read again. -/
theorem unquote_escape (cs : List Char) :
    unquote? (cs.flatMap escapeChar) = some (String.ofList cs) := by
  simp [unquote?, string_tail_written]

end Json

theorem fits_int64 (n : Int64) : toInt64? n.toInt = some n := by
  have lower := n.le_toInt
  have upper := n.toInt_lt
  have fits : fitsInt64 n.toInt = true := by
    simp only [fitsInt64, Bool.and_eq_true, decide_eq_true_eq]
    omega
  rw [toInt64?, if_pos fits, Int64.ofInt_toInt]

theorem nat_digits (n : Nat) : (∀ c ∈ natDigits n, c.isDigit = true) ∧ natDigits n ≠ [] :=
  ⟨fun _ member => Nat.isDigit_of_mem_toDigits (by decide) (by decide) member,
    Nat.toDigits_ne_nil⟩

theorem signed_digits (n : Int) :
    signed (decide (n < 0)) (digitsValue (natDigits n.natAbs)) = n := by
  have value : digitsValue (natDigits n.natAbs) = n.natAbs := Nat.ofDigitChars_ten_toDigits
  rw [value, signed]
  split_ifs with negative
  · have below : n < 0 := of_decide_eq_true negative
    omega
  · have above : ¬n < 0 := fun below => negative (decide_eq_true below)
    omega

/-- A number is read from its decimal text. -/
theorem number_spells (n : Int64) (stops : Stops Char.isDigit behind) :
    Spells (intDigits n.toInt) (.number n) behind := by
  have spells : Spells (if decide (n.toInt < 0) then '-' :: natDigits n.toInt.natAbs
      else natDigits n.toInt.natAbs) (.number n) behind := by
    obtain ⟨digits, nonempty⟩ := nat_digits n.toInt.natAbs
    exact .number nonempty digits stops (by rw [signed_digits, fits_int64])
  simpa [intDigits] using spells

/-- The text of a number begins with a character that extends no symbol. -/
theorem number_first (n : Int) :
    ∃ first others, intDigits n = first :: others ∧ isTextual first = true := by
  unfold intDigits
  split_ifs with negative
  · exact ⟨'-', _, rfl, rfl⟩
  · obtain ⟨digits, nonempty⟩ := nat_digits n.natAbs
    obtain ⟨first, others, same⟩ := List.exists_cons_of_ne_nil nonempty
    have digit : first.isDigit = true := digits first (by simp [same])
    exact ⟨first, others, same, by simp [isTextual, part_cases.mpr (.inr digit)]⟩

theorem symbol_before_blank (s : Symbol) (more : List Char) :
    symbol? (s.text.toList ++ ' ' :: more) = some s := by
  cases s with
  | comparator op => cases op <;> rfl
  | _ => rfl

private theorem symbol_before_end (s : Symbol) : symbol? s.text.toList = some s := by
  cases s with
  | comparator op => cases op <;> rfl
  | _ => rfl

/-- Whether the text of the token is read as this token in front of the others. The names of
functions, and only these, stand in front of parentheses, and a literal has to be one that its text
denotes. -/
def Token.Legible (more : List Token) : Token → Prop
  | .identifier name => IsName name.toList ∧ more.head? ≠ some (.symbol .leftParen)
  | .functionName name => IsName name.toList ∧ more.head? = some (.symbol .leftParen)
  | .literal value => Spells (Token.literal value).written (.literal value) []
  | _ => True

/-- Every token is legible where it stands. -/
def Legible : List Token → Prop
  | [] => True
  | t :: more => t.Legible more ∧ Legible more

private theorem quoted_spells (name : String) :
    Spells (Token.quotedIdentifier name).written (.quotedIdentifier name) behind := by
  have enclosed : Enclosed Delimited.quotedIdentifier.delimiter
      (name.toList.flatMap Json.escapeChar) := Json.escape_enclosed _
  refine Spells.delimited enclosed fun position => ?_
  simp [delimitedToken, Json.unquote_escape]

private theorem raw_spells (text : String) :
    Spells (Token.rawString text).written (.rawString text) behind := by
  have enclosed : Enclosed Delimited.rawString.delimiter (escapeRaw text.toList) := raw_enclosed _
  refine Spells.delimited enclosed fun position => ?_
  simp [delimitedToken, unescape_raw]

private theorem symbol_text (spells : Spells text (.symbol s) behind) : text = s.text.toList := by
  generalize same : Token.symbol s = t at spells
  cases spells with
  | symbol found =>
    cases same
    rfl
  | delimited enclosed denotes =>
    rename_i inside what
    have denoted := denotes 0
    subst same
    cases what with
    | rawString => cases denoted
    | quotedIdentifier | literal =>
      unfold delimitedToken at denoted
      dsimp only at denoted
      split at denoted <;> cases denoted
  | _ => cases same

private theorem spells_opens (spells : Spells text t behind) :
    opensCall (text ++ more) = true ↔ t = .symbol .leftParen := by
  obtain ⟨first, others, same, ink, read⟩ := spells_read spells
  have opens : opensCall (text ++ more) = true ↔ first = '(' := by
    simp [opensCall, same, ink]
  rw [opens]
  constructor
  · intro paren
    subst paren
    have outcome := congrArg Reading.outcome (read 0)
    rw [read_symbol (s := .leftParen) rfl] at outcome
    cases outcome
    rfl
  · rintro rfl
    rw [symbol_text spells] at same
    exact (List.cons.inj same).1.symm

/-- A call opens exactly where the first token is a parenthesis. -/
theorem lexes_opens (lexes : Lexes cs tokens) :
    opensCall cs = true ↔ tokens.head? = some (.symbol .leftParen) := by
  induction lexes with
  | nil => simp [opensCall]
  | blank blank others ih => simpa [opensCall, blank] using ih
  | token spells others ih => simpa using spells_opens spells

private theorem legible_spells (legible : t.Legible more)
    (gap : behind = [] ∨ ∃ others, behind = ' ' :: others) (lexes : Lexes behind more) :
    Spells t.written t behind := by
  have stops (inside : Char → Bool) (blank : inside ' ' = false) : Stops inside behind := by
    rcases gap with rfl | ⟨others, rfl⟩
    · exact nofun
    · intro c head
      cases head
      exact blank
  cases t with
  | identifier name =>
    obtain ⟨isName, noCall⟩ := legible
    have spells := Spells.identifier isName (stops _ rfl)
      (Bool.eq_false_iff.mpr fun call => noCall ((lexes_opens lexes).mp call))
    rwa [String.ofList_toList] at spells
  | functionName name =>
    obtain ⟨isName, call⟩ := legible
    have spells := Spells.functionName isName (stops _ rfl) ((lexes_opens lexes).mpr call)
    rwa [String.ofList_toList] at spells
  | quotedIdentifier name => exact quoted_spells name
  | rawString text => exact raw_spells text
  | literal value =>
    have spells : Spells (Token.literal value).written (.literal value) ([] ++ behind) :=
      spells_append legible trivial
    exact spells
  | number n => exact number_spells n (stops _ rfl)
  | symbol s =>
    refine .symbol ?_
    rcases gap with rfl | ⟨others, rfl⟩
    · rw [List.append_nil]
      exact symbol_before_end s
    · exact symbol_before_blank s others

/-- Legible tokens are read from their texts with spaces between them. -/
theorem legible_lexes (tokens : List Token) (legible : Legible tokens) :
    Lexes (spaced tokens) tokens := by
  induction tokens with
  | nil => exact .nil
  | cons t more ih =>
    obtain ⟨first, others⟩ := legible
    cases more with
    | nil => simpa [spaced] using Lexes.token (legible_spells first (.inl rfl) .nil) .nil
    | cons u more =>
      have behind : Lexes (' ' :: spaced (u :: more)) (u :: more) := .blank rfl (ih others)
      exact .token (legible_spells first (.inr ⟨_, rfl⟩) behind) behind

end JsonQuery
