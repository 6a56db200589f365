import JsonQuery.Proofs.Dictionaries
import JsonQuery.Proofs.NumberText

/-! JSON text is read back. Reading gives finite doubles, distinct keys and no more nesting than it
admits, and every such value is read from its text, whatever space stands between the tokens. -/
namespace JsonQuery

/-- Values that JSON text can denote, with so many arrays and objects inside one another. -/
inductive Denotable : (nesting : Nat) → Value → Prop where
  | null : Denotable nesting .null
  | bool : Denotable nesting (.bool b)
  | int : Denotable nesting (.int n)
  | float : Denotable nesting (.float (.finite negative units representable))
  | str : Denotable nesting (.str s)
  | arr (each : ∀ item ∈ items, Denotable nesting item) : Denotable (nesting + 1) (.arr items)
  | obj (distinct : Dict.Distinct entries) (each : ∀ e ∈ entries, Denotable nesting e.2) :
      Denotable (nesting + 1) (.obj entries)

namespace Json

/-! ## What is read -/

private theorem number_denotable (n : Number) : Denotable nesting n.toValue := by
  cases n with
  | whole n inRange =>
    rw [Number.toValue]
    split
    · exact .int
    · have bits : n.natAbs ≤ twoPow 64 := by
        have value : twoPow 64 = 18446744073709551616 := rfl
        omega
      rw [Double.ofInt, Double.nearest, Double.nearestUnits,
        Double.of_units_finite (int_representable bits)]
      exact .float
  | real x finite =>
    cases x with
    | finite => exact .float
    | infinite | nan => cases finite

private theorem scalar_denotable (read : scalar cs = some (t, rest)) :
    Denotable nesting t.toValue := by
  unfold scalar at read
  split at read
  · cases read
    exact .null
  · cases read
    exact .bool
  · cases read
    exact .bool
  · obtain ⟨⟨text, behind⟩, -, same⟩ := Option.bind_eq_some_iff.mp read
    cases same
    exact .str
  · obtain ⟨⟨n, behind⟩, -, same⟩ := Option.bind_eq_some_iff.mp read
    cases same
    exact number_denotable n

private theorem members_each {member : List Char → Option (α × List Char)} {P : α → Prop}
    (each : ∀ cs a rest, member cs = some (a, rest) → P a) (budget : Nat) :
    ∀ cs found rest, members member close budget cs = some (found, rest) → ∀ a ∈ found, P a := by
  induction budget with
  | zero => exact nofun
  | succ budget ih =>
    intro cs found rest read
    obtain ⟨⟨a, behind⟩, first, read⟩ := Option.bind_eq_some_iff.mp read
    dsimp only at read
    split at read
    · cases read
    · split_ifs at read
      · cases read
        exact List.forall_mem_singleton.mpr (each _ _ _ first)
      · obtain ⟨⟨others, behind⟩, more, same⟩ := Option.bind_eq_some_iff.mp read
        cases same
        exact List.forall_mem_cons.mpr ⟨each _ _ _ first, ih _ _ _ more⟩

private theorem entry_value {item : List Char → Option (Tree × List Char)} {P : Tree → Prop}
    (each : ∀ cs t rest, item cs = some (t, rest) → P t) :
    ∀ cs e rest, entry item cs = some (e, rest) → P e.2 := by
  intro cs e rest read
  unfold entry at read
  split at read
  · obtain ⟨⟨key, behind⟩, -, read⟩ := Option.bind_eq_some_iff.mp read
    dsimp only at read
    split at read
    · obtain ⟨⟨v, behind⟩, found, same⟩ := Option.bind_eq_some_iff.mp read
      cases same
      exact each _ _ _ found
    · cases read
  · cases read

/-- What is read nests no deeper than is admitted, and its keys are distinct. -/
theorem value_denotable (nesting : Nat) :
    ∀ cs t rest, value nesting cs = some (t, rest) → Denotable nesting t.toValue := by
  induction nesting with
  | zero => exact fun cs t rest read => scalar_denotable read
  | succ nesting ih =>
    intro cs t rest read
    unfold value at read
    split at read
    · unfold arrayTail at read
      split at read
      · cases read
        exact .arr nofun
      · obtain ⟨⟨ts, behind⟩, found, same⟩ := Option.bind_eq_some_iff.mp read
        cases same
        have each := members_each ih _ _ _ _ found
        rw [Tree.toValue, Tree.toItems_map]
        exact .arr (List.forall_mem_map.mpr each)
    · unfold objectTail at read
      split at read
      · cases read
        exact .obj List.nodup_nil nofun
      · obtain ⟨⟨es, behind⟩, found, same⟩ := Option.bind_eq_some_iff.mp read
        cases same
        have each := members_each (entry_value ih) _ _ _ _ found
        rw [Tree.toValue, Tree.toEntries_map]
        refine .obj ?_ (List.forall_mem_map.mpr fun e member => ?_)
        · have keys : Dict.keys ((Dict.ofEntries es).map fun e => (e.1, e.2.toValue)) =
              Dict.keys (Dict.ofEntries es) := by
            simp [Dict.keys, Function.comp_def]
          rw [Dict.Distinct, keys]
          exact Dict.distinct_of_entries es
        · rcases Dict.mem_insertAll es [] member with none | listed
          · cases none
          · exact each e listed
    · exact scalar_denotable read

/-! ## Space and first characters -/

/-- Nothing but JSON white space stands between the tokens. -/
structure Spacing.Blank (sp : Spacing) : Prop where
  gap : ∀ depth, ∀ c ∈ sp.gap depth, isSpace c = true
  afterColon : ∀ c ∈ sp.afterColon, isSpace c = true

theorem none_blank : Spacing.none.Blank :=
  ⟨nofun, nofun⟩

theorem lines_blank : Spacing.lines.Blank := by
  constructor
  · intro depth c member
    rcases List.mem_cons.mp member with rfl | blanks
    · rfl
    · rw [List.eq_of_mem_replicate blanks]
      rfl
  · intro c member
    rw [List.mem_singleton.mp member]
    rfl

private theorem space_no_numeral (space : isSpace c = true) : isNumeralPart c = false := by
  simp only [isSpace, Bool.or_eq_true, decide_eq_true_eq] at space
  rcases space with ((rfl | rfl) | rfl) | rfl <;> rfl

section Space

variable {space : List Char} (blank : ∀ c ∈ space, isSpace c = true)
include blank

private theorem skip_blank (cs : List Char) : skipSpace (space ++ cs) = skipSpace cs :=
  List.dropWhile_append_of_pos blank

private theorem value_blank (nesting : Nat) (cs : List Char) :
    value nesting (space ++ cs) = value nesting cs := by
  cases nesting <;> simp only [value, skip_blank blank]

private theorem entry_blank (item : List Char → Option (Tree × List Char)) (cs : List Char) :
    entry item (space ++ cs) = entry item cs := by
  simp only [entry, skip_blank blank]

private theorem stops_blank (stop : isNumeralPart c = false) (rest : List Char) :
    Stops isNumeralPart (space ++ c :: rest) := by
  intro d head
  cases space with
  | nil =>
    cases head
    exact stop
  | cons first others =>
    cases head
    exact space_no_numeral (blank _ List.mem_cons_self)

end Space

private theorem skip_ink (ink : isSpace c = false) (rest : List Char) :
    skipSpace (c :: rest) = c :: rest := by
  simp [skipSpace, ink]

private theorem scan_whole (scanned : Numeral.scan cs = some (n, rest)) :
    n.whole = cs.takeWhile Char.isDigit := by
  obtain ⟨parts, -, same⟩ := Option.bind_eq_some_iff.mp scanned
  cases same
  rfl

/-- A number begins with its sign or a digit. -/
theorem number_starts (read : number cs = some (n, rest)) :
    ∃ first others, cs = first :: others ∧ (first = '-' ∨ first.isDigit = true) := by
  unfold number at read
  dsimp only at read
  obtain ⟨⟨n, behind⟩, scanned, read⟩ := Option.bind_eq_some_iff.mp read
  split_ifs at read with strict
  split at scanned
  · exact ⟨'-', _, rfl, .inl rfl⟩
  · have whole := scan_whole scanned
    cases cs with
    | nil =>
      have empty : n.whole = [] := whole
      simp [isNumber, empty] at strict
    | cons first others =>
      refine ⟨first, others, rfl, .inr ?_⟩
      by_contra noDigit
      have empty : n.whole = [] := by simpa [noDigit] using whole
      simp [isNumber, empty] at strict

private theorem value_scalar (nesting : Nat) (ink : isSpace c = false) (noArray : c ≠ '[')
    (noObject : c ≠ '\x7b') : value nesting (c :: rest) = scalar (c :: rest) := by
  cases nesting with
  | zero => rw [value, skip_ink ink]
  | succ nesting =>
    rw [value, skip_ink ink]
    split
    · rename_i same
      exact absurd (List.cons.inj same).1 noArray
    · rename_i same
      exact absurd (List.cons.inj same).1 noObject
    · rfl

private theorem value_number (nesting : Nat) (read : number cs = some (n, rest)) :
    value nesting cs = some (.number n, rest) := by
  obtain ⟨first, others, rfl, start⟩ := number_starts read
  have other (c : Char) (noSign : c ≠ '-') (noDigit : c.isDigit = false) : first ≠ c := by
    rintro rfl
    rcases start with sign | digit
    · exact noSign sign
    · rw [noDigit] at digit
      cases digit
  have ink : isSpace first = false := by
    simp [isSpace, other ' ' (by decide) rfl, other '\t' (by decide) rfl,
      other '\n' (by decide) rfl, other '\r' (by decide) rfl]
  rw [value_scalar nesting ink (other '[' (by decide) rfl) (other '\x7b' (by decide) rfl), scalar]
  · rw [read]
    rfl
  · exact fun others same => absurd (List.cons.inj same).1 (other 'n' (by decide) rfl)
  · exact fun others same => absurd (List.cons.inj same).1 (other 't' (by decide) rfl)
  · exact fun others same => absurd (List.cons.inj same).1 (other 'f' (by decide) rfl)
  · exact fun others same => absurd (List.cons.inj same).1 (other '"' (by decide) rfl)

/-- A closing bracket begins no value. -/
theorem value_not_closing (read : value nesting cs = some r) :
    ∀ others, skipSpace cs ≠ ']' :: others := by
  intro others closing
  have noScalar : scalar (']' :: others) = some r := by
    cases nesting <;> simpa [value, closing] using read
  have reduced : scalar (']' :: others) =
      (number (']' :: others)).bind fun found => some (.number found.1, found.2) := rfl
  rw [reduced] at noScalar
  obtain ⟨⟨n, behind⟩, noNumber, -⟩ := Option.bind_eq_some_iff.mp noScalar
  obtain ⟨first, rest, same, start⟩ := number_starts noNumber
  cases same
  rcases start with sign | digit
  · cases sign
  · cases digit

/-! ## Members -/

/-- The text behind the first of several members: a comma and a gap in front of each of the others,
and the closing character. -/
def memberTail (text : α → List Char) (close : Char) (gap last : List Char) : List α → List Char
  | [] => last ++ [close]
  | a :: more => ',' :: (gap ++ (text a ++ memberTail text close gap last more))

/-- The text of an entry. -/
def entryText (sp : Spacing) (depth : Nat) (e : String × Value) : List Char :=
  writeString e.1.toList ++ ':' :: (sp.afterColon ++ writeValue sp depth e.2)

private theorem items_tail (sp : Spacing) (depth : Nat) (vs : List Value) : writeItems sp depth vs =
    memberTail (writeValue sp (depth + 1)) ']' (sp.gap (depth + 1)) (sp.gap depth) vs := by
  induction vs with
  | nil => rfl
  | cons v more ih => rw [writeItems, memberTail, ih]

private theorem entries_tail (sp : Spacing) (depth : Nat) (es : List (String × Value)) :
    writeEntries sp depth es =
      memberTail (entryText sp (depth + 1)) '\x7d' (sp.gap (depth + 1)) (sp.gap depth) es := by
  induction es with
  | nil => rfl
  | cons e more ih => simp [writeEntries, memberTail, entryText, ih]

theorem array_text (sp : Spacing) (depth : Nat) (v : Value) (more : List Value) :
    writeValue sp depth (.arr (v :: more)) = '[' :: (sp.gap (depth + 1) ++
      (writeValue sp (depth + 1) v ++
        memberTail (writeValue sp (depth + 1)) ']' (sp.gap (depth + 1)) (sp.gap depth) more)) := by
  rw [writeValue, items_tail]

theorem object_text (sp : Spacing) (depth : Nat) (e : String × Value)
    (more : List (String × Value)) :
    writeValue sp depth (.obj (e :: more)) = '\x7b' :: (sp.gap (depth + 1) ++
      (entryText sp (depth + 1) e ++
        memberTail (entryText sp (depth + 1)) '\x7d' (sp.gap (depth + 1)) (sp.gap depth) more)) := by
  simp [writeValue, entryText, entries_tail]

section Members

variable {α β : Type} {member : List Char → Option (β × List Char)} {text : α → List Char}
  {denotes : α → β} {close : Char} {gap last : List Char}

private theorem member_tail_length (more : List α) :
    more.length < (memberTail text close gap last more).length := by
  induction more with
  | nil => simp [memberTail]
  | cons a more ih =>
    simp only [memberTail, List.length_cons, List.length_append]
    omega

private theorem member_tail_stops (blank : ∀ c ∈ last, isSpace c = true)
    (stop : isNumeralPart close = false)
    (text : α → List Char) (gap : List Char) (more : List α) (rest : List Char) :
    Stops isNumeralPart (memberTail text close gap last more ++ rest) := by
  cases more with
  | nil =>
    rw [memberTail, List.append_assoc]
    exact stops_blank blank stop _
  | cons a more =>
    intro c head
    cases head
    rfl

section Reading

variable (skips : ∀ cs, member (gap ++ cs) = member cs) (blank : ∀ c ∈ last, isSpace c = true)
  (ink : isSpace close = false) (stop : isNumeralPart close = false) (noComma : close ≠ ',')
include skips blank ink stop noComma

/-- Members are read one by one, up to the character that closes them. -/
theorem members_within (rest : List Char) (more : List α) :
    ∀ a budget, more.length < budget →
      (∀ b ∈ a :: more, ∀ rest, Stops isNumeralPart rest →
        member (text b ++ rest) = some (denotes b, rest)) →
        members member close budget
          (gap ++ (text a ++ (memberTail text close gap last more ++ rest))) =
            some ((a :: more).map denotes, rest) := by
  -- By induction on the members to come: each leaves the text of the others, which no number
  -- goes on with, so that it is read whatever stands behind it.
  induction more with
  | nil =>
    intro a budget enough each
    obtain ⟨budget, rfl⟩ := Nat.exists_eq_add_one.mpr enough
    have read := each a List.mem_cons_self _ (member_tail_stops blank stop text gap [] rest)
    have closed : skipSpace (memberTail text close gap last [] ++ rest) = close :: rest := by
      rw [memberTail, List.append_assoc, skip_blank blank]
      exact skip_ink ink rest
    rw [members, skips, read]
    simp [closed]
  | cons next more ih =>
    intro a budget enough each
    obtain ⟨budget, rfl⟩ := Nat.exists_eq_add_one.mpr (Nat.zero_lt_of_lt enough)
    have read := each a List.mem_cons_self _
      (member_tail_stops blank stop text gap (next :: more) rest)
    have others := ih next budget (Nat.lt_of_succ_lt_succ enough)
      fun b member => each b (List.mem_cons_of_mem _ member)
    have comma : skipSpace (memberTail text close gap last (next :: more) ++ rest) =
        ',' :: (gap ++ (text next ++ (memberTail text close gap last more ++ rest))) := by
      rw [memberTail, List.cons_append, List.append_assoc, List.append_assoc]
      exact skip_ink rfl _
    rw [members, skips, read]
    simp [comma, noComma.symm, others]

/-- The length of the text is enough of a budget. -/
theorem members_written
    (spelled : inside = gap ++ (text a ++ (memberTail text close gap last more ++ rest)))
    (each : ∀ b ∈ a :: more, ∀ rest, Stops isNumeralPart rest →
      member (text b ++ rest) = some (denotes b, rest)) :
    members member close inside.length inside = some ((a :: more).map denotes, rest) := by
  have enough : more.length < inside.length := by
    have counted : more.length < (memberTail text close gap last more).length :=
      member_tail_length more
    simp only [spelled, List.length_append]
    omega
  subst spelled
  exact members_within skips blank ink stop noComma rest more a _ enough each

end Reading

end Members

/-! ## Reading what is written -/

/-- The tree of the value is read from its text at every depth, whatever follows. -/
def ReadsBack (sp : Spacing) (nesting : Nat) (v : Value) : Prop :=
  ∀ depth rest, Stops isNumeralPart rest →
    value nesting (writeValue sp depth v ++ rest) = some (.ofValue v, rest)

section Written

variable {sp : Spacing} (blank : sp.Blank)
include blank

/-- A key is read with its value. -/
theorem entry_written (depth : Nat) (e : String × Value) (reads : ReadsBack sp nesting e.2)
    (ends : Stops isNumeralPart rest) :
    entry (value nesting) (entryText sp depth e ++ rest) =
      some ((e.1, .ofValue e.2), rest) := by
  have quote (text : List Char) : skipSpace ('"' :: text) = '"' :: text := skip_ink rfl text
  have colon (text : List Char) : skipSpace (':' :: text) = ':' :: text := skip_ink rfl text
  have read := value_blank blank.afterColon nesting (writeValue sp depth e.2 ++ rest)
  rw [reads depth rest ends] at read
  simp [entry, entryText, writeString, quote, colon, string_tail_written, read]

private theorem array_written (each : ∀ item ∈ vs, ReadsBack sp nesting item) :
    ReadsBack sp (nesting + 1) (.arr vs) := by
  intro depth rest ends
  cases vs with
  | nil => rfl
  | cons v more =>
    obtain ⟨inside, spelled⟩ : ∃ inside, inside = sp.gap (depth + 1) ++
      (writeValue sp (depth + 1) v ++ (memberTail (writeValue sp (depth + 1)) ']'
        (sp.gap (depth + 1)) (sp.gap depth) more ++ rest)) := ⟨_, rfl⟩
    have read : members (value nesting) ']' inside.length inside =
        some ((v :: more).map Tree.ofValue, rest) :=
      members_written (value_blank (blank.gap (depth + 1)) nesting) (blank.gap depth) rfl rfl
        (by decide) spelled fun item member => each item member (depth + 1)
    obtain ⟨behind, first⟩ : ∃ behind, value nesting inside = some (.ofValue v, behind) := by
      rw [spelled, value_blank (blank.gap (depth + 1))]
      exact ⟨_, each v List.mem_cons_self (depth + 1) _
        (member_tail_stops (blank.gap depth) rfl _ _ more rest)⟩
    have opened : value (nesting + 1) (writeValue sp depth (.arr (v :: more)) ++ rest) =
        arrayTail (value nesting) inside := by
      rw [array_text, spelled]
      simp only [List.cons_append, List.append_assoc]
      rfl
    rw [opened, arrayTail, read, Tree.ofValue, Tree.ofItems_map]
    -- The array is not taken for an empty one, since its first item begins with no bracket.
    split
    · rename_i closing
      exact absurd closing (value_not_closing first _)
    · rfl

private theorem object_written (distinct : Dict.Distinct es)
    (each : ∀ e ∈ es, ReadsBack sp nesting e.2) :
    ReadsBack sp (nesting + 1) (.obj es) := by
  intro depth rest ends
  cases es with
  | nil => rfl
  | cons e more =>
    obtain ⟨inside, spelled⟩ : ∃ inside, inside = sp.gap (depth + 1) ++
      (entryText sp (depth + 1) e ++ (memberTail (entryText sp (depth + 1)) '\x7d'
        (sp.gap (depth + 1)) (sp.gap depth) more ++ rest)) := ⟨_, rfl⟩
    have read : members (entry (value nesting)) '\x7d' inside.length inside =
        some ((e :: more).map fun e => (e.1, .ofValue e.2), rest) :=
      members_written (entry_blank (blank.gap (depth + 1)) (value nesting)) (blank.gap depth) rfl rfl
        (by decide) spelled fun e member rest ends =>
          entry_written blank (depth + 1) e (each e member) ends
    obtain ⟨others, quote⟩ : ∃ others, skipSpace inside = '"' :: others := by
      rw [spelled, skip_blank (blank.gap (depth + 1))]
      exact ⟨_, skip_ink rfl _⟩
    have opened : value (nesting + 1) (writeValue sp depth (.obj (e :: more)) ++ rest) =
        objectTail (value nesting) inside := by
      rw [object_text, spelled]
      simp only [List.cons_append, List.append_assoc]
      rfl
    have keys : Dict.Distinct ((e :: more).map fun e => (e.1, Tree.ofValue e.2)) := by
      simpa [Dict.Distinct, Dict.keys, Function.comp_def] using distinct
    rw [opened, objectTail, read, quote, Tree.ofValue, Tree.ofEntries_map]
    exact congrArg some (congrArg (Prod.mk · rest) (congrArg Tree.obj
      (Dict.of_entries_distinct keys)))

/-- A value that JSON text can denote is read from its text. -/
theorem denotable_written (denotable : Denotable nesting v) : ReadsBack sp nesting v := by
  induction denotable with
  | null =>
    intro depth rest ends
    rw [writeValue]
    exact value_scalar _ rfl (by decide) (by decide)
  | @bool _ b =>
    intro depth rest ends
    cases b <;> exact value_scalar _ rfl (by decide) (by decide)
  | int =>
    intro depth rest ends
    rw [writeValue]
    exact value_number _ (number_integer _ ends)
  | float =>
    intro depth rest ends
    rw [writeValue]
    exact value_number _ (number_double floatLayout _ _ ends)
  | @str _ s =>
    intro depth rest ends
    rw [writeValue, writeString, List.cons_append, value_scalar _ rfl (by decide) (by decide)]
    simp [scalar, string_tail_written, Tree.ofValue]
  | arr each ih => exact array_written blank ih
  | obj distinct each ih => exact object_written blank distinct ih

end Written

end Json

end JsonQuery
