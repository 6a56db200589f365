import JsonQuery.Proofs.FloatText

/-! How the text of a number is scanned. A numeral is written part by part, and is read again where
nothing behind it goes on with it. The text of a double is such a numeral in every layout, and it
denotes the digits and the exponent that were chosen for the double. -/
namespace JsonQuery

/-! ## Digits -/

private theorem digits_zeros (n zeros : Nat) :
    digitsValue (natDigits n ++ List.replicate zeros '0') = n * tenPow zeros := by
  have value : Nat.ofDigitChars 10 (natDigits n) 0 = n := Nat.ofDigitChars_ten_toDigits
  rw [digitsValue, Nat.ofDigitChars_append, value, Nat.ofDigitChars_replicate_zero, Nat.mul_comm]
  rfl

private theorem zeros_digits (zeros n : Nat) :
    digitsValue (List.replicate zeros '0' ++ natDigits n) = n := by
  rw [digitsValue, Nat.ofDigitChars_append, Nat.ofDigitChars_replicate_zero, Nat.mul_zero]
  exact Nat.ofDigitChars_ten_toDigits

private theorem digits_value (n : Nat) : digitsValue (natDigits n) = n :=
  Nat.ofDigitChars_ten_toDigits

/-- Only zero begins with a zero. -/
theorem digits_first (positive : 0 < n) :
    ∃ first others, natDigits n = first :: others ∧ first ≠ '0' := by
  induction n using Nat.strong_induction_on with
  | _ n ih =>
    by_cases small : n < 10
    · refine ⟨n.digitChar, [], Nat.toDigits_of_lt_base small, ?_⟩
      interval_cases n <;> decide
    · obtain ⟨first, others, same, nonzero⟩ := ih (n / 10) (by omega) (by omega)
      refine ⟨first, others ++ [(n % 10).digitChar], ?_, nonzero⟩
      have last : natDigits n = natDigits (n / 10) ++ [(n % 10).digitChar] :=
        Nat.toDigits_of_base_le (by decide) (Nat.not_lt.mp small)
      rw [last, same, List.cons_append]

/-! ## Numerals -/

/-- Characters that a numeral may go on with. -/
def isNumeralPart (c : Char) : Bool :=
  c.isDigit || c == '.' || c == 'e' || c == 'E'

namespace Numeral

/-- The parts are digits, and as many as a point asks for. -/
structure Digital (n : Numeral) : Prop where
  whole : ∀ c ∈ n.whole, c.isDigit = true
  fraction : ∀ c ∈ n.fractionDigits, c.isDigit = true

/-- The point and the digits behind it. -/
def fractionText (n : Numeral) : List Char :=
  match n.fraction with
  | some digits => '.' :: digits
  | none => []

/-- The letter of the exponent and its digits. -/
def exponentText (plusSign : Bool) (n : Numeral) : List Char :=
  match n.exponent with
  | some power => 'e' :: ((if 0 ≤ power && plusSign then ['+'] else []) ++ intDigits power)
  | none => []

/-- A text of the numeral. -/
def text (plusSign : Bool) (n : Numeral) : List Char :=
  n.whole ++ (n.fractionText ++ n.exponentText plusSign)

end Numeral

private theorem span_digits (digital : ∀ c ∈ digits, c.isDigit = true)
    (stops : Stops Char.isDigit rest) :
    spanDigits (digits ++ rest) = (digits, rest) := by
  obtain ⟨run, dropped⟩ := run_exact digital stops
  rw [spanDigits, run, dropped]

private theorem stops_weaken {inside fewer : Char → Bool}
    (weaker : ∀ c, fewer c = true → inside c = true)
    (stops : Stops inside behind) : Stops fewer behind := by
  intro c head
  cases found : fewer c with
  | false => rfl
  | true => exact (weaker c found).symm.trans (stops c head)

section Scanning
open Numeral

variable {rest : List Char} (ends : Stops isNumeralPart rest)
include ends

private theorem ends_digits : Stops Char.isDigit rest :=
  stops_weaken (fun c digit => by simp [isNumeralPart, digit]) ends

private theorem scan_magnitude (negative : Bool) (n : Nat) :
    scanExponentDigits negative (natDigits n ++ rest) = some (signed negative n, rest) := by
  obtain ⟨digital, nonempty⟩ := nat_digits n
  have value := digits_value n
  rw [scanExponentDigits, span_digits digital (ends_digits ends)]
  obtain ⟨first, others, same⟩ := List.exists_cons_of_ne_nil nonempty
  rw [same] at value ⊢
  simp [value]

omit ends in
/-- Digits right behind the letter have no sign. -/
theorem scan_unsigned (digit : first.isDigit = true) (others : List Char) :
    scanExponent ('e' :: first :: others) =
      (scanExponentDigits false (first :: others)).map fun (power, rest) => (some power, rest) := by
  have noMinus : first ≠ '-' := fun same => by rw [same] at digit; cases digit
  have noPlus : first ≠ '+' := fun same => by rw [same] at digit; cases digit
  simp only [scanExponent, true_or, if_true]
  split
  · rename_i same
    exact absurd (List.cons.inj same).1 noMinus
  · rename_i same
    exact absurd (List.cons.inj same).1 noPlus
  · cases scanExponentDigits false (first :: others) <;> rfl

private theorem scan_exponent (plusSign : Bool) (n : Numeral) :
    scanExponent (n.exponentText plusSign ++ rest) = some (n.exponent, rest) := by
  unfold exponentText
  cases exponent : n.exponent with
  | none =>
    cases rest with
    | nil => rfl
    | cons c rest =>
      have stop := ends c rfl
      simp only [isNumeralPart, Bool.or_eq_false_iff, beq_eq_false_iff_ne] at stop
      simp [scanExponent, stop]
  | some power =>
    have scanned := scan_magnitude ends (decide (power < 0)) power.natAbs
    rw [signed_natAbs] at scanned
    unfold intDigits
    by_cases negative : power < 0
    · have below : ¬0 ≤ power := Int.not_le.mpr negative
      rw [decide_eq_true negative] at scanned
      simp [scanExponent, negative, below, scanned]
    · rw [decide_eq_false negative] at scanned
      cases plusSign with
      | true => simp [scanExponent, negative, Int.not_lt.mp negative, scanned]
      | false =>
        obtain ⟨digital, nonempty⟩ := nat_digits power.natAbs
        obtain ⟨first, others, same⟩ := List.exists_cons_of_ne_nil nonempty
        have digit : first.isDigit = true := digital first (by simp [same])
        rw [same, List.cons_append] at scanned
        simp [negative, same, scan_unsigned digit, scanned]

omit ends in
theorem scan_fraction (digital : n.Digital) (stops : Stops Char.isDigit behind)
    (noPoint : ∀ others, behind ≠ '.' :: others) :
    scanFraction (fractionText n ++ behind) = (n.fraction, behind) := by
  have digits := digital.fraction
  unfold fractionText
  unfold fractionDigits at digits
  cases fraction : n.fraction with
  | none =>
    rw [List.nil_append]
    unfold scanFraction
    split
    · exact absurd rfl (noPoint _)
    · rfl
  | some part =>
    rw [fraction] at digits
    have spanned : spanDigits (part ++ behind) = (part, behind) := span_digits digits stops
    simp [scanFraction, spanned]

/-- A numeral is scanned from its text. -/
theorem scan_text (plusSign : Bool) (digital : n.Digital) :
    scan (text plusSign n ++ rest) = some (n, rest) := by
  have behind : Stops Char.isDigit (n.exponentText plusSign ++ rest) ∧
      ∀ others, n.exponentText plusSign ++ rest ≠ '.' :: others := by
    unfold exponentText
    split
    · refine ⟨fun c head => ?_, nofun⟩
      cases head
      rfl
    · refine ⟨ends_digits ends, fun others same => ?_⟩
      have stop := ends '.' (by rw [← List.nil_append rest, same]; rfl)
      cases stop
  have point : Stops Char.isDigit (n.fractionText ++ (n.exponentText plusSign ++ rest)) := by
    unfold fractionText
    split
    · intro c head
      cases head
      rfl
    · exact behind.1
  rw [text, List.append_assoc, List.append_assoc, scan, span_digits digital.whole point]
  simp only [scan_fraction digital behind.1 behind.2, scan_exponent ends]
  rfl

end Scanning

/-! ## Layouts -/

/-- A numeral for `digits · 10 ^ exponent` that is no integer. Zeros may have been appended to the
digits, up to the first place behind the point. -/
structure Numeral.Stands (n : Numeral) (digits : Nat) (exponent : Int) : Prop where
  digital : n.Digital
  strict : Json.isNumber n = true
  noInteger : n.isInteger = false
  denotes : ∃ zeros : Nat, digitsValue (n.whole ++ n.fractionDigits) = digits * tenPow zeros ∧
    n.exponent.getD 0 - n.fractionDigits.length = exponent - zeros ∧
      (zeros : Int) ≤ max 0 (exponent + 1)

section Layouts
open FloatLayout

private theorem zeros_digital (zeros : Nat) : ∀ c ∈ List.replicate zeros '0', c.isDigit = true := by
  intro c member
  rw [List.eq_of_mem_replicate member]
  rfl

private theorem strict_first (same : n.whole = first :: others) (nonzero : first ≠ '0')
    (behind : n.fraction ≠ some []) : Json.isNumber n = true := by
  simp [Json.isNumber, same, nonzero, behind]

variable {digits : Nat} (positive : 0 < digits)
include positive

/-- An exponent that is not negative adds zeros to the digits, and one behind the point. -/
theorem natural_stands (zeros : Nat) :
    Numeral.Stands ⟨natDigits digits ++ List.replicate zeros '0', some ['0'], none⟩
      digits zeros where
  digital := by
    refine ⟨fun c member => ?_, fun c member => ?_⟩
    · rcases List.mem_append.mp member with inDigits | inZeros
      · exact (nat_digits digits).1 c inDigits
      · exact zeros_digital zeros c inZeros
    · exact zeros_digital 1 c member
  strict := by
    obtain ⟨first, others, same, nonzero⟩ := digits_first positive
    exact strict_first (by rw [same, List.cons_append]) nonzero nofun
  noInteger := rfl
  denotes := by
    refine ⟨zeros + 1, ?_, by simp [Numeral.fractionDigits], by omega⟩
    have appended := digits_zeros digits (zeros + 1)
    rwa [List.replicate_succ', ← List.append_assoc] at appended

/-- Fewer places than digits put the point between the digits. -/
theorem split_stands (behind : 0 < places) (short : places < (natDigits digits).length) :
    Numeral.Stands ⟨(natDigits digits).take ((natDigits digits).length - places),
      some ((natDigits digits).drop ((natDigits digits).length - places)), none⟩
      digits (-places) where
  digital :=
    ⟨fun c member => (nat_digits digits).1 c (List.mem_of_mem_take member),
      fun c member => (nat_digits digits).1 c (List.mem_of_mem_drop member)⟩
  strict := by
    obtain ⟨first, others, same, nonzero⟩ := digits_first positive
    obtain ⟨front, count⟩ : ∃ front, (natDigits digits).length - places = front + 1 :=
      ⟨(natDigits digits).length - places - 1, by omega⟩
    have whole : (natDigits digits).take ((natDigits digits).length - places) =
        first :: others.take front := by rw [count, same, List.take_succ_cons]
    refine strict_first whole nonzero fun empty => ?_
    have none := List.drop_eq_nil_iff.mp (Option.some.inj empty)
    omega
  noInteger := rfl
  denotes := by
    refine ⟨0, ?_, ?_, by omega⟩
    · have whole : digitsValue (natDigits digits) = digits * tenPow 0 := by
        rw [digits_value]
        exact (Nat.mul_one digits).symm
      simpa [Numeral.fractionDigits] using whole
    · simp only [Numeral.fractionDigits, Option.getD_some, Option.getD_none, List.length_drop]
      omega

omit positive in
/-- Other places put zeros between the point and the digits. -/
theorem small_stands (long : (natDigits digits).length ≤ places) :
    Numeral.Stands ⟨['0'],
      some (List.replicate (places - (natDigits digits).length) '0' ++ natDigits digits), none⟩
      digits (-places) where
  digital := by
    refine ⟨fun c member => zeros_digital 1 c member, fun c member => ?_⟩
    rcases List.mem_append.mp member with inZeros | inDigits
    · exact zeros_digital _ c inZeros
    · exact (nat_digits digits).1 c inDigits
  strict := by
    have nonempty := (nat_digits digits).2
    simp [Json.isNumber, nonempty]
  noInteger := rfl
  denotes := by
    refine ⟨0, ?_, ?_, by omega⟩
    · have value := zeros_digits (places - (natDigits digits).length + 1) digits
      rw [List.replicate_succ, List.cons_append] at value
      exact value.trans (Nat.mul_one digits).symm
    · simp only [Numeral.fractionDigits, Option.getD_some, Option.getD_none, List.length_append,
        List.length_replicate]
      omega

private theorem positional_stands (exponent : Int) :
    ∃ n : Numeral, (∀ plusSign, positional (natDigits digits) exponent = n.text plusSign) ∧
      n.Stands digits exponent := by
  unfold positional
  dsimp only
  split_ifs with whole short
  · obtain ⟨zeros, rfl⟩ := Int.eq_ofNat_of_zero_le whole
    refine ⟨_, fun plusSign => ?_, natural_stands positive zeros⟩
    simp [Numeral.text, Numeral.fractionText, Numeral.exponentText]
  · have behind : 0 < (-exponent).toNat := by omega
    have stands := split_stands positive behind short
    have places : -((-exponent).toNat : Int) = exponent := by omega
    rw [places] at stands
    refine ⟨_, fun plusSign => ?_, stands⟩
    simp [Numeral.text, Numeral.fractionText, Numeral.exponentText]
  · have stands := small_stands (Nat.not_lt.mp short)
    have places : -((-exponent).toNat : Int) = exponent := by omega
    rw [places] at stands
    refine ⟨_, fun plusSign => ?_, stands⟩
    simp [Numeral.text, Numeral.fractionText, Numeral.exponentText]

/-- The exponent behind the letter is the one of the first digit. -/
theorem scientific_stands (layout : FloatLayout) (exponent : Int) :
    ∃ n : Numeral, layout.scientific (natDigits digits)
        (exponent + (natDigits digits).length - 1) = n.text layout.plusSign ∧
      n.Stands digits exponent := by
  obtain ⟨first, others, same, nonzero⟩ := digits_first positive
  obtain ⟨digital, -⟩ := nat_digits digits
  have value := digits_value digits
  have one : digits * tenPow 0 = digits := Nat.mul_one digits
  rw [same] at digital value ⊢
  cases others with
  | nil =>
    refine ⟨⟨[first], none, some exponent⟩, ?_,
      ⟨⟨digital, nofun⟩, strict_first rfl nonzero nofun, rfl, 0, value.trans one.symm, ?_, by omega⟩⟩
    · simp [scientific, Numeral.text, Numeral.fractionText, Numeral.exponentText]
    · simp [Numeral.fractionDigits]
  | cons second more =>
    have behind (c : Char) (member : c ∈ second :: more) : c.isDigit = true :=
      digital c (List.mem_cons_of_mem _ member)
    have front (c : Char) (member : c ∈ [first]) : c.isDigit = true :=
      digital c (List.mem_singleton.mp member ▸ List.mem_cons_self)
    refine ⟨⟨[first], some (second :: more), some (exponent + (more.length + 1))⟩, ?_,
      ⟨⟨front, behind⟩, strict_first rfl nonzero nofun, rfl, 0, value.trans one.symm, ?_, by omega⟩⟩
    · have power : exponent + ((first :: second :: more).length : Int) - 1 =
          exponent + (more.length + 1) := by
        rw [List.length_cons, List.length_cons]
        omega
      rw [power]
      simp [scientific, Numeral.text, Numeral.fractionText, Numeral.exponentText]
    · simp [Numeral.fractionDigits]

/-- Every layout spells digits and their exponent as a numeral for them. -/
theorem spell_stands (layout : FloatLayout) (exponent : Int) :
    ∃ n : Numeral, layout.spell (digits, exponent) = n.text layout.plusSign ∧
      n.Stands digits exponent := by
  unfold spell
  dsimp only
  split_ifs with inside
  · obtain ⟨n, same, stands⟩ := positional_stands positive exponent
    exact ⟨n, same layout.plusSign, stands⟩
  · exact scientific_stands positive layout exponent

end Layouts

/-! ## Numbers -/

section Doubles

variable {units : Nat} (representable : Representable units)
include representable

/-- A numeral for digits that round to a magnitude denotes the double of this magnitude. -/
theorem stands_double {n : Numeral} {level : Nat} (stands : n.Stands digits (level - 1074))
    (rounds : RoundsTo units digits level) (positive : 0 < digits) (nonzero : units ≠ 0)
    (negative : Bool) : n.toDouble negative = .finite negative units representable := by
  obtain ⟨zeros, value, power, bound⟩ := stands.denotes
  obtain ⟨finer, rfl⟩ : ∃ finer, level = finer + zeros := ⟨level - zeros, by omega⟩
  have same : RoundsTo units (digits * tenPow zeros) finer := by
    rw [RoundsTo, Nat.mul_assoc, ← tenPow_add, Nat.add_comm zeros]
    exact rounds
  have exponent : ((finer + zeros : Nat) - 1074 - zeros : Int) = finer - 1074 := by omega
  rw [Numeral.toDouble, value, power, exponent]
  exact of_scientific_round representable same (Nat.mul_pos positive (tenPow_pos zeros)) nonzero
    negative

/-- The text of digits that round to a magnitude is a numeral for it. -/
theorem spell_numeral (layout : FloatLayout) {number : Nat × Int} {level : Nat}
    (exponent : number.2 = level - 1074) (rounds : RoundsTo units number.1 level)
    (nonzero : units ≠ 0) :
    ∃ n : Numeral, layout.spell number = n.text layout.plusSign ∧ n.Digital ∧
      Json.isNumber n = true ∧ n.isInteger = false ∧
        ∀ negative, n.toDouble negative = .finite negative units representable := by
  obtain ⟨digits, power⟩ := number
  dsimp only at exponent rounds
  subst exponent
  have positive : 0 < digits := by
    rcases Nat.eq_zero_or_pos digits with rfl | positive
    · have nothing : 2 * (0 * tenPow level) < finestPerUnit := by
        rw [Nat.zero_mul]
        exact finestPerUnit_pos
      exact absurd (rounds.symm.trans (round_tiny nothing)) nonzero
    · exact positive
  obtain ⟨n, same, stands⟩ := spell_stands positive layout (level - 1074)
  exact ⟨n, same, stands.digital, stands.strict, stands.noInteger,
    stands_double representable stands rounds positive nonzero⟩

/-- The text of a magnitude is a numeral for it. -/
theorem magnitude_numeral (layout : FloatLayout) :
    ∃ n : Numeral, layout.magnitude units = n.text layout.plusSign ∧ n.Digital ∧
      Json.isNumber n = true ∧ n.isInteger = false ∧
        ∀ negative, n.toDouble negative = .finite negative units representable := by
  unfold FloatLayout.magnitude
  split_ifs with zero
  · subst zero
    refine ⟨⟨['0'], some ['0'], none⟩, rfl, ⟨zeros_digital 1, zeros_digital 1⟩, rfl, rfl, ?_⟩
    intro negative
    have nothing : digitsValue ['0', '0'] = 0 := by decide
    rw [Numeral.toDouble]
    change Double.ofScientific negative (digitsValue ['0', '0']) _ = _
    rw [nothing, Double.ofScientific, if_pos rfl, Double.of_units_finite representable]
  · obtain ⟨level, exponent, rounds⟩ := shortest_digits_round representable layout.tiesUp
    exact spell_numeral representable layout exponent rounds zero

end Doubles

namespace Json

/-- A sign is read apart from its numeral. -/
theorem number_text (negative plusSign : Bool) (digital : n.Digital) (strict : isNumber n = true)
    (ends : Stops isNumeralPart rest) :
    number ((if negative then '-' :: n.text plusSign else n.text plusSign) ++ rest) =
      (numberValue negative n).map fun v => (v, rest) := by
  have scanned := scan_text ends plusSign digital
  have outcome : (numberValue negative n).bind (fun v => some (v, rest)) =
      (numberValue negative n).map fun v => (v, rest) := by
    cases numberValue negative n <;> rfl
  cases negative with
  | true => simp [number, scanned, strict, outcome]
  | false =>
    have digits := digital.whole
    obtain ⟨first, others, same⟩ : ∃ first others, n.whole = first :: others := by
      refine List.exists_cons_of_ne_nil fun empty => ?_
      simp [isNumber, empty] at strict
    have digit : first.isDigit = true := digits first (by simp [same])
    have noMinus : first ≠ '-' := fun minus => by rw [minus] at digit; cases digit
    rw [if_neg Bool.false_ne_true]
    rw [Numeral.text, same, List.cons_append, List.cons_append] at scanned ⊢
    unfold number
    dsimp only
    split
    · rename_i minus
      exact absurd (List.cons.inj minus).1 noMinus
    · rw [scanned]
      simp [strict, outcome]

/-- The text of a finite double is read as this double. -/
theorem number_double (layout : FloatLayout) (negative : Bool) (representable : Representable units)
    (ends : Stops isNumeralPart rest) :
    number (layout.write negative units ++ rest) =
      some (.real (.finite negative units representable) rfl, rest) := by
  obtain ⟨n, same, digital, strict, noInteger, value⟩ := magnitude_numeral representable layout
  have read := number_text negative layout.plusSign digital strict ends
  rw [FloatLayout.write, same, read, numberValue, noInteger, value]
  rfl

/-- The text of an integer is read as this integer. -/
theorem number_integer (n : Int64) (ends : Stops isNumeralPart rest) :
    number (intDigits n.toInt ++ rest) = some (.ofInt64 n, rest) := by
  have digital : Numeral.Digital ⟨natDigits n.toInt.natAbs, none, none⟩ :=
    ⟨(nat_digits n.toInt.natAbs).1, nofun⟩
  have strict : isNumber ⟨natDigits n.toInt.natAbs, none, none⟩ = true := by
    rcases Nat.eq_zero_or_pos n.toInt.natAbs with zero | positive
    · rw [zero]
      rfl
    · obtain ⟨first, others, same, nonzero⟩ := digits_first positive
      exact strict_first same nonzero nofun
  have read := number_text (decide (n.toInt < 0)) false digital strict ends
  have value : numberValue (decide (n.toInt < 0)) ⟨natDigits n.toInt.natAbs, none, none⟩ =
      some (.ofInt64 n) := by
    have noMinusZero :
        (decide (n.toInt < 0) && digitsValue (natDigits n.toInt.natAbs) == 0) = false := by
      rw [digits_value, Bool.and_eq_false_iff, decide_eq_false_iff_not, beq_eq_false_iff_ne]
      omega
    have exact : Numeral.toInt (decide (n.toInt < 0)) ⟨natDigits n.toInt.natAbs, none, none⟩ =
        n.toInt := signed_digits n.toInt
    have inRange : Number.ofInt? n.toInt = some (.ofInt64 n) := dif_pos (Number.ofInt64_range n)
    simp [numberValue, Numeral.isInteger, noMinusZero, exact, inRange]
  rw [value] at read
  simpa [intDigits, Numeral.text, Numeral.fractionText, Numeral.exponentText] using read

end Json

end JsonQuery
