import JsonQuery.Proofs.CallDispatch
import JsonQuery.Proofs.LiteralText

/-! Numbers written as text and read again. The text of an integer has neither a point nor an
exponent, and its digits fit into 64 bits; the text of a double has one of the two, so that it is
never taken for an integer, and it denotes this double among all. Reading admits blanks around a
number, which is why they may be put around its text. -/
namespace JsonQuery

/-! ## Blanks around a text -/

private theorem trim_blanks (front : ∀ c ∈ before, isBlank c = true)
    (back : ∀ c ∈ behind, isBlank c = true) (cs : List Char) :
    trimBlank (before ++ (cs ++ behind)) = trimBlank cs := by
  have last : ∀ c ∈ behind.reverse, isBlank c = true :=
    fun c member => back c (List.mem_reverse.mp member)
  rw [trimBlank, List.dropWhile_append_of_pos front, List.dropWhile_append]
  split_ifs with blank
  · rw [trimBlank, List.isEmpty_iff.mp blank, List.dropWhile_eq_nil_iff.mpr back]
  · rw [trimBlank, List.reverse_append, List.dropWhile_append_of_pos last]

/-- Blanks around a text do not change the number that it stands for. -/
theorem read_number_blanks (front : ∀ c ∈ before, isBlank c = true)
    (back : ∀ c ∈ behind, isBlank c = true) (cs : List Char) :
    readNumber? (before ++ (cs ++ behind)) = readNumber? cs := by
  rw [readNumber?, readNumber?, trim_blanks front back]

/-! ## The text of a numeral -/

namespace Numeral

variable {n : Numeral}

private theorem split_sign_text (digital : n.Digital) (starts : n.whole ≠ [])
    (negative plusSign : Bool) :
    splitSign (if negative then '-' :: n.text plusSign else n.text plusSign) =
      (negative, n.text plusSign) := by
  cases negative with
  | true => rfl
  | false =>
    obtain ⟨first, others, same⟩ := List.exists_cons_of_ne_nil starts
    have digit : first.isDigit = true := digital.whole first (by simp [same])
    rw [if_neg Bool.false_ne_true, text, same, List.cons_append]
    unfold splitSign
    split
    · rename_i minus
      cases (List.cons.inj minus).1
      cases digit
    · rename_i plus
      cases (List.cons.inj plus).1
      cases digit
    · rfl

/-- A numeral with a sign is read from its text. -/
theorem read_text (digital : n.Digital) (starts : n.whole ≠ []) (negative plusSign : Bool) :
    readNumber? (if negative then '-' :: n.text plusSign else n.text plusSign) =
      n.toValue? negative := by
  have chars : ∀ c ∈ if negative then '-' :: n.text plusSign else n.text plusSign,
      IsNumberChar c := by
    have unsigned := numeral_chars digital plusSign
    split_ifs
    · exact List.forall_mem_cons.mpr ⟨.inr (by decide), unsigned⟩
    · exact unsigned
  have ends : Stops isNumeralPart [] := nofun
  have scanned := scan_text ends plusSign digital
  rw [List.append_nil] at scanned
  rw [readNumber?, Json.trim_framed (Json.number_framed chars),
    split_sign_text digital starts]
  simp [scanned]

end Numeral

/-! ## Numbers -/

private theorem read_integer_text (n : Int64) :
    readNumber? (intDigits n.toInt) = some (.int n) := by
  obtain ⟨digits, starts⟩ := nat_digits n.toInt.natAbs
  have read := Numeral.read_text (n := ⟨natDigits n.toInt.natAbs, none, none⟩) ⟨digits, nofun⟩
    starts (decide (n.toInt < 0)) false
  have value : (⟨natDigits n.toInt.natAbs, none, none⟩ : Numeral).toInt (decide (n.toInt < 0)) =
      n.toInt := signed_digits n.toInt
  simpa [intDigits, Numeral.text, Numeral.fractionText, Numeral.exponentText, Numeral.toValue?,
    Numeral.isInteger, starts, value, fits_int64] using read

private theorem read_double_text (layout : FloatLayout) (negative : Bool)
    (representable : Representable units) :
    readNumber? (layout.write negative units) =
      some (.float (.finite negative units representable)) := by
  obtain ⟨n, same, digital, strict, noInteger, value⟩ := magnitude_numeral representable layout
  have starts : n.whole ≠ [] := by
    intro none
    simp [Json.isNumber, none] at strict
  rw [FloatLayout.write, same, Numeral.read_text digital starts]
  simp [Numeral.toValue?, starts, noInteger, value, Double.isFinite]

namespace Library

/-- The text of a number is read as this number, with blanks around it or without. -/
theorem to_number_text (number : (∃ n, v = .int n) ∨ ∃ x, x.isFinite = true ∧ v = .float x) :
    ∃ text, toText v = .str text ∧ ∀ before behind : String,
      (∀ c ∈ before.toList ++ behind.toList, isBlank c = true) →
        toNumber (.str (before ++ text ++ behind)) = v := by
  have read : readNumber? (Json.writeValue .none 0 v) = some v := by
    obtain ⟨n, rfl⟩ | ⟨x, finite, rfl⟩ := number
    · rw [Json.writeValue, read_integer_text]
    · cases x with
      | finite negative units representable =>
        exact read_double_text Json.floatLayout negative representable
      | infinite => cases finite
      | nan => cases finite
  refine ⟨Json.compact v, ?_, fun before behind blank => ?_⟩
  · obtain ⟨n, rfl⟩ | ⟨x, -, rfl⟩ := number <;> rfl
  · obtain ⟨front, back⟩ := List.forall_mem_append.mp blank
    have around : readNumber? (before ++ Json.compact v ++ behind).toList = some v := by
      rw [String.toList_append, String.toList_append, Json.compact, String.toList_ofList,
        List.append_assoc, read_number_blanks front back, read]
    rw [toNumber, around, Option.getD_some]

end Library

namespace Expr
open Library

variable {s : Settings} {depth : Nat}

/-- A function of any one value is called with the value of its argument. -/
theorem eval_of_value {f : Value → Value} (known : s.functions.get? name = some (unary [.any] f))
    (evaluated : ∀ child, c ≠ .reference child) (value : eval s (depth + 1) c v = .ok w) :
    eval s depth (.call name [c]) v = .ok (f w) := by
  have accepts : (taking [[.any]]).AcceptsAll [.value w] := Signature.accepts_all_one ⟨_, rfl, rfl⟩
  exact eval_accepted (room_around (room_of_ok value)) known (.cons (.value evaluated value) .nil)
    accepts rfl

/-- A number that is written as text is read from it as the same number, an integer as an integer
and a double as the same double, also when there are blanks around the text. -/
theorem to_number_undoes_to_string (order : ObjectOrder) {v : Value}
    (number : (∃ n, v = .int n) ∨ ∃ x, x.isFinite = true ∧ v = .float x) :
    let o : Options := ⟨order, .builtins⟩
    let written := Expr.call "to_string" [.current]
    (Expr.call "to_number" [written]).evaluate o v = .ok v ∧
      ∃ text, written.evaluate o v = .ok (.str text) ∧
        ∀ before behind : String, (∀ c ∈ before.toList ++ behind.toList, isBlank c = true) →
          (Expr.call "to_number" [.current]).evaluate o (.str (before ++ text ++ behind)) =
            .ok v := by
  intro o written
  have writer : o.settings.functions.get? "to_string" = some (unary [.any] toText) := rfl
  have reader : o.settings.functions.get? "to_number" = some (unary [.any] toNumber) := rfl
  obtain ⟨text, wrote, reads⟩ := to_number_text number
  have alone : toNumber (.str text) = v := by simpa using reads "" "" nofun
  have current (child : Expr) : Expr.current ≠ .reference child := by
    intro same
    cases same
  have call (child : Expr) : Expr.call "to_string" [.current] ≠ .reference child := by
    intro same
    cases same
  have wrote (depth : Nat) (value : eval o.settings (depth + 1) .current v = .ok v) :
      eval o.settings depth written v = .ok (.str text) := by
    rw [eval_of_value writer current value, wrote]
  refine ⟨?_, text, wrote 0 rfl, fun before behind blank => ?_⟩
  · exact (eval_of_value reader call (wrote 1 rfl)).trans (congrArg _ alone)
  · exact (eval_of_value reader current rfl).trans (congrArg _ (reads before behind blank))

/-- The zero below zero keeps its point and its sign. -/
theorem to_number_undoes_to_string_minus_zero :
    let o : Options := ⟨.insertion, .builtins⟩
    let zero := Value.float (.finite true 0 ⟨twoPow_pos 2098, Nat.dvd_zero _⟩)
    ((∃ n, zero = .int n) ∨ ∃ x, x.isFinite = true ∧ zero = .float x) ∧
      (Expr.call "to_string" [.current]).evaluate o zero = .ok (.str "-0.0") ∧
      (∀ c ∈ "\t".toList ++ "\u3000\n".toList, isBlank c = true) ∧
      (Expr.call "to_number" [.current]).evaluate o (.str "\t-0.0\u3000\n") = .ok zero := by
  intro o zero
  have number : (∃ n, zero = .int n) ∨ ∃ x, x.isFinite = true ∧ zero = .float x :=
    .inr ⟨_, rfl, rfl⟩
  have blank : ∀ c ∈ "\t".toList ++ "\u3000\n".toList, isBlank c = true := by
    simp [isBlank]
  have written : (Expr.call "to_string" [.current]).evaluate o zero = .ok (.str "-0.0") := by rfl
  obtain ⟨-, text, wrote, reads⟩ := to_number_undoes_to_string .insertion number
  cases written.symm.trans wrote
  exact ⟨number, written, blank, reads "\t" "\u3000\n" blank⟩

end Expr

end JsonQuery
