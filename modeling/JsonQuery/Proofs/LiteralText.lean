import JsonQuery.Proofs.JsonTrees

/-! The text of a literal. Only the delimiter is escaped inside it, so that its JSON text must not
hold a backslash in front of a delimiter; in JSON text a backslash always begins an escape, and no
escape goes on with the delimiter. Nothing is lost when blanks around the text are dropped, since
JSON text has none at its ends. -/
namespace JsonQuery

/-! ## The escape of the delimiter -/

private theorem unescape_literal (cs : List Char) : unescapeLiteral (escapeLiteral cs) = cs := by
  induction cs with
  | nil => rfl
  | cons c cs ih =>
    have step : escapeLiteral (c :: cs) =
        (if c = '\x60' then ['\\', c] else [c]) ++ escapeLiteral cs := by
      simp [escapeLiteral]
    -- Escaped text begins with no delimiter, so a backslash in front of it stays a backslash.
    have first (others : List Char) : escapeLiteral cs ≠ '\x60' :: others := by
      intro same
      cases cs with
      | nil => cases same
      | cons d ds =>
        by_cases delimiter : d = '\x60' <;> simp [escapeLiteral, delimiter] at same
    rw [step]
    split_ifs with delimiter
    · subst delimiter
      simp [unescapeLiteral, ih]
    · have other : unescapeLiteral (c :: escapeLiteral cs) =
          c :: unescapeLiteral (escapeLiteral cs) := by
        rw [unescapeLiteral.eq_2]
        exact fun others _ same => first others same
      rw [List.singleton_append, other, ih]

/-- The text may stand between the delimiters of a literal once these are escaped in it. -/
def Quotable (cs : List Char) : Prop :=
  Enclosed '\x60' (escapeLiteral cs)

private theorem quotable_append (first : Quotable front) (second : Quotable back) :
    Quotable (front ++ back) := by
  unfold Quotable escapeLiteral
  rw [List.flatMap_append]
  exact enclosed_append first second

private theorem quotable_cons (noEscape : c ≠ '\\') (others : Quotable cs) :
    Quotable (c :: cs) := by
  have single : Quotable [c] := by
    unfold Quotable escapeLiteral
    rw [List.flatMap_singleton]
    split_ifs with delimiter
    · exact .escape .nil
    · exact .other delimiter noEscape .nil
  exact quotable_append single others

/-- What a backslash takes with it is no delimiter. -/
theorem quotable_pair (noDelimiter : escaped ≠ '\x60') (others : Quotable cs) :
    Quotable ('\\' :: escaped :: cs) := by
  have pair : Quotable ['\\', escaped] := by
    unfold Quotable escapeLiteral
    simp only [List.flatMap_cons, List.flatMap_nil, if_neg noDelimiter]
    exact .escape .nil
  exact quotable_append pair others

private theorem quotable_plain (plain : '\\' ∉ cs) : Quotable cs := by
  induction cs with
  | nil => exact .nil
  | cons c cs ih =>
    obtain ⟨noEscape, others⟩ := not_or.mp fun member => plain (List.mem_cons.mpr member)
    exact quotable_cons (Ne.symm noEscape) (ih others)

/-! ## Numbers -/

/-- The characters that the texts of numbers are made of. -/
def IsNumberChar (c : Char) : Prop :=
  c.isDigit = true ∨ c ∈ ['.', 'e', '+', '-']

private theorem number_char_ink (number : IsNumberChar c) : c ≠ '\\' ∧ isBlank c = false := by
  rcases number with digit | listed
  · refine ⟨?_, part_not_blank (part_cases.mpr (.inr digit))⟩
    rintro rfl
    cases digit
  · simp only [List.mem_cons, List.not_mem_nil, or_false] at listed
    rcases listed with rfl | rfl | rfl | rfl <;> exact ⟨by decide, by decide⟩

private theorem int_chars (n : Int) : ∀ c ∈ intDigits n, IsNumberChar c := by
  have digits : ∀ c ∈ natDigits n.natAbs, IsNumberChar c :=
    fun c member => .inl ((nat_digits n.natAbs).1 c member)
  unfold intDigits
  split_ifs with negative
  · exact List.forall_mem_cons.mpr ⟨.inr (by decide), digits⟩
  · exact digits

theorem numeral_chars (digital : n.Digital) (plusSign : Bool) :
    ∀ c ∈ Numeral.text plusSign n, IsNumberChar c := by
  have fraction : ∀ c ∈ n.fractionText, IsNumberChar c := by
    have digits := digital.fraction
    unfold Numeral.fractionDigits at digits
    unfold Numeral.fractionText
    split
    · rename_i part same
      rw [same] at digits
      exact List.forall_mem_cons.mpr ⟨.inr (by decide), fun c member => .inl (digits c member)⟩
    · exact nofun
  have exponent : ∀ c ∈ n.exponentText plusSign, IsNumberChar c := by
    unfold Numeral.exponentText
    split
    · refine List.forall_mem_cons.mpr ⟨.inr (by decide), ?_⟩
      refine List.forall_mem_append.mpr ⟨?_, int_chars _⟩
      split_ifs
      · exact List.forall_mem_singleton.mpr (.inr (by decide))
      · exact nofun
    · exact nofun
  exact List.forall_mem_append.mpr ⟨fun c member => .inl (digital.whole c member),
    List.forall_mem_append.mpr ⟨fraction, exponent⟩⟩

private theorem double_chars (layout : FloatLayout) (negative : Bool)
    (representable : Representable units) :
    ∀ c ∈ layout.write negative units, IsNumberChar c := by
  obtain ⟨n, same, digital, -⟩ := magnitude_numeral representable layout
  have chars := numeral_chars digital layout.plusSign
  rw [FloatLayout.write, same]
  split_ifs
  · exact List.forall_mem_cons.mpr ⟨.inr (by decide), chars⟩
  · exact chars

namespace Json

/-! ## Backslashes in JSON text -/

private theorem escape_quotable (c : Char) : Quotable (escapeChar c) := by
  rcases escape_cases c with ⟨letter, same, -, read⟩ | ⟨same, -, noEscape, -⟩ |
    ⟨high, low, same, -, -, highPlain, lowPlain⟩
  · rw [same]
    refine quotable_pair ?_ .nil
    rintro rfl
    cases read
  · rw [same]
    exact quotable_cons noEscape .nil
  · rw [same]
    simp only [List.mem_cons, List.not_mem_nil, or_false, not_or] at highPlain lowPlain
    exact quotable_pair (by decide) (quotable_cons (by decide) (quotable_cons (by decide)
      (quotable_cons highPlain.2 (quotable_cons lowPlain.2 .nil))))

private theorem string_quotable (cs : List Char) : Quotable (writeString cs) := by
  have inside : Quotable (cs.flatMap escapeChar) := by
    induction cs with
    | nil => exact .nil
    | cons c cs ih =>
      rw [List.flatMap_cons]
      exact quotable_append (escape_quotable c) ih
  have quote : Quotable ['"'] := quotable_cons (by decide) .nil
  exact quotable_cons (by decide) (quotable_append inside quote)

private theorem number_quotable (chars : ∀ c ∈ cs, IsNumberChar c) : Quotable cs :=
  quotable_plain fun member => (number_char_ink (chars _ member)).1 rfl

private theorem space_quotable (blank : ∀ c ∈ space, isSpace c = true) : Quotable space := by
  refine quotable_plain fun member => ?_
  have space := blank _ member
  cases space

private theorem members_quotable {text : α → List Char} (inner : ∀ c ∈ gap, isSpace c = true)
    (outer : ∀ c ∈ last, isSpace c = true) (noEscape : close ≠ '\\') (members : List α)
    (each : ∀ a ∈ members, Quotable (text a)) :
    Quotable (memberTail text close gap last members) := by
  induction members with
  | nil => exact quotable_append (space_quotable outer) (quotable_cons noEscape .nil)
  | cons a more ih =>
    obtain ⟨first, others⟩ := List.forall_mem_cons.mp each
    exact quotable_cons (by decide)
      (quotable_append (space_quotable inner) (quotable_append first (ih others)))

/-- Every backslash of a JSON text begins an escape. -/
theorem value_quotable {sp : Spacing} (blank : sp.Blank) (denotable : Denotable nesting v) :
    ∀ depth, Quotable (writeValue sp depth v) := by
  induction denotable with
  | null =>
    intro depth
    rw [writeValue]
    exact quotable_plain (by decide)
  | @bool _ b =>
    intro depth
    rw [writeValue]
    cases b <;> exact quotable_plain (by decide)
  | int =>
    intro depth
    rw [writeValue]
    exact number_quotable (int_chars _)
  | @float _ negative units representable =>
    intro depth
    rw [writeValue]
    exact number_quotable (double_chars floatLayout negative representable)
  | str =>
    intro depth
    rw [writeValue]
    exact string_quotable _
  | @arr items _ each ih =>
    intro depth
    cases items with
    | nil =>
      rw [writeValue]
      exact quotable_plain (by decide)
    | cons v more =>
      have bracket : ']' ≠ '\\' := by decide
      have tail := members_quotable (blank.gap (depth + 1)) (blank.gap depth) bracket more
        fun item member => ih item (List.mem_cons_of_mem _ member) (depth + 1)
      rw [array_text]
      exact quotable_cons (by decide) (quotable_append (space_quotable (blank.gap (depth + 1)))
        (quotable_append (ih v List.mem_cons_self (depth + 1)) tail))
  | @obj entries _ distinct each ih =>
    intro depth
    -- A key is a string of its own, and the value behind its colon is covered by the induction.
    have entry (e : String × Value) (member : e ∈ entries) :
        Quotable (entryText sp (depth + 1) e) :=
      quotable_append (string_quotable e.1.toList) (quotable_cons (by decide)
        (quotable_append (space_quotable blank.afterColon) (ih e member (depth + 1))))
    cases entries with
    | nil =>
      rw [writeValue]
      exact quotable_plain (by decide)
    | cons e more =>
      have brace : '\x7d' ≠ '\\' := by decide
      have tail := members_quotable (blank.gap (depth + 1)) (blank.gap depth) brace more
        fun e member => entry e (List.mem_cons_of_mem _ member)
      rw [object_text]
      exact quotable_cons (by decide) (quotable_append (space_quotable (blank.gap (depth + 1)))
        (quotable_append (entry e List.mem_cons_self) tail))

/-! ## Blanks at the ends -/

/-- No blank stands at either end. -/
def Framed (cs : List Char) : Prop :=
  Stops isBlank cs ∧ Stops isBlank cs.reverse

theorem trim_framed (framed : Framed cs) : trimBlank cs = cs := by
  have none : ∀ c ∈ ([] : List Char), isBlank c = true := nofun
  have front (ds : List Char) (stops : Stops isBlank ds) : ds.dropWhile isBlank = ds :=
    (run_exact none stops).2
  rw [trimBlank, front cs framed.1, front cs.reverse framed.2, List.reverse_reverse]

private theorem framed_ink (ink : ∀ c ∈ cs, isBlank c = false) : Framed cs :=
  ⟨fun c head => ink c (List.mem_of_mem_head? head),
    fun c head => ink c (List.mem_reverse.mp (List.mem_of_mem_head? head))⟩

private theorem framed_ends (first : isBlank c = false) (last : isBlank d = false)
    (inside : List Char) :
    Framed (c :: (inside ++ [d])) := by
  constructor
  · intro _ head
    cases head
    exact first
  · intro _ head
    rw [← List.cons_append, List.reverse_append] at head
    cases head
    exact last

theorem number_framed (chars : ∀ c ∈ cs, IsNumberChar c) : Framed cs :=
  framed_ink fun c member => (number_char_ink (chars c member)).2

private theorem member_tail_closes (text : α → List Char) (close : Char) (gap last : List Char)
    (members : List α) : ∃ inside, memberTail text close gap last members = inside ++ [close] := by
  induction members with
  | nil => exact ⟨last, rfl⟩
  | cons a more ih =>
    obtain ⟨inside, same⟩ := ih
    exact ⟨',' :: (gap ++ (text a ++ inside)), by simp [memberTail, same]⟩

/-- JSON text has no blank at its ends. -/
theorem value_framed (sp : Spacing) (depth : Nat) (denotable : Denotable nesting v) :
    Framed (writeValue sp depth v) := by
  cases denotable with
  | null =>
    rw [writeValue]
    exact framed_ends (c := 'n') rfl rfl ['u', 'l']
  | @bool _ b =>
    rw [writeValue]
    cases b with
    | true => exact framed_ends (c := 't') rfl rfl ['r', 'u']
    | false => exact framed_ends (c := 'f') rfl rfl ['a', 'l', 's']
  | int =>
    rw [writeValue]
    exact number_framed (int_chars _)
  | @float _ negative units representable =>
    rw [writeValue]
    exact number_framed (double_chars floatLayout negative representable)
  | @str _ s =>
    rw [writeValue]
    exact framed_ends rfl rfl (s.toList.flatMap escapeChar)
  | @arr items _ each =>
    cases items with
    | nil =>
      rw [writeValue]
      exact framed_ends rfl rfl []
    | cons v more =>
      obtain ⟨inside, same⟩ := member_tail_closes (writeValue sp (depth + 1)) ']'
        (sp.gap (depth + 1)) (sp.gap depth) more
      rw [array_text, same, ← List.append_assoc, ← List.append_assoc]
      exact framed_ends rfl rfl _
  | @obj entries _ distinct each =>
    cases entries with
    | nil =>
      rw [writeValue]
      exact framed_ends rfl rfl []
    | cons e more =>
      obtain ⟨inside, same⟩ := member_tail_closes (entryText sp (depth + 1)) '\x7d'
        (sp.gap (depth + 1)) (sp.gap depth) more
      rw [object_text, same, ← List.append_assoc, ← List.append_assoc]
      exact framed_ends rfl rfl _

end Json

/-- A literal is read from its text. -/
theorem literal_spells (denotable : Denotable Json.maxNesting v) :
    Spells (Token.literal v).written (.literal v) [] := by
  have enclosed : Enclosed Delimited.literal.delimiter
      (escapeLiteral (Json.writeValue .none 0 v)) :=
    Json.value_quotable Json.none_blank denotable 0
  have trimmed : trimBlank (Json.writeValue .none 0 v) = Json.writeValue .none 0 v :=
    Json.trim_framed (Json.value_framed _ _ denotable)
  refine Spells.delimited enclosed fun position => ?_
  rw [delimitedToken, unescape_literal, trimmed, Json.document_read Json.none_blank denotable]

end JsonQuery
