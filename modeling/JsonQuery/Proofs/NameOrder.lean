import Mathlib.Data.String.Basic

/-! The order of names. Names are compared by their code points, and UTF-8 keeps this order: the
first byte of a character tells how many follow, more bytes begin with a greater one, and in equally
many the higher bits come first. Distinct names that are sorted ascend strictly either way. -/
namespace JsonQuery

/-! ## Sorted names -/

section

variable {α : Type} (name : α → String) (xs : List α)

/-- Sorting by distinct names makes them ascend. -/
theorem sort_names_ascending (distinct : (xs.map name).Nodup) :
    ((xs.mergeSort fun a b => name a ≤ name b).map name).Pairwise (· < ·) := by
  have perm := List.mergeSort_perm xs fun a b => decide (name a ≤ name b)
  have apart := (perm.map name).symm.nodup distinct
  have ascending : (xs.mergeSort fun a b => name a ≤ name b).Pairwise fun a b =>
      decide (name a ≤ name b) = true :=
    List.pairwise_mergeSort (by simpa using fun a b c => le_trans)
      (by simpa using fun a b => le_total _ _) xs
  rw [List.pairwise_map]
  refine (ascending.and (List.pairwise_map.mp apart)).imp fun both => ?_
  exact lt_of_le_of_ne (of_decide_eq_true both.1) both.2

end

/-! ## Bytes -/

/-- The bytes of a string in UTF-8. -/
def utf8 (s : String) : List UInt8 :=
  s.toUTF8.data.toList

private theorem utf8_chars (s : String) : utf8 s = s.toList.flatMap String.utf8EncodeChar := by
  rw [utf8, String.toUTF8]
  conv_lhs => rw [← String.ofList_toList (s := s)]
  rw [String.toByteArray_ofList]
  exact List.toList_data_toByteArray

/-- The bytes behind the first one have six bits each. -/
def laterBytes (code : Nat) : (count : Nat) → List UInt8
  | 0 => []
  | count + 1 => UInt8.ofNat (code / 64 ^ count % 64 + 128) :: laterBytes code count

private theorem byte_lt (less : a < b) (fits : b < 256) : UInt8.ofNat a < UInt8.ofNat b := by
  rw [UInt8.lt_iff_toNat_lt, UInt8.toNat_ofNat', UInt8.toNat_ofNat']
  omega

private theorem later_bytes_lt (less : m < n) (count : Nat)
    (front : m / 64 ^ count = n / 64 ^ count)
    (behind others : List UInt8) : laterBytes m count ++ behind < laterBytes n count ++ others := by
  induction count with
  | zero =>
    rw [Nat.pow_zero, Nat.div_one, Nat.div_one] at front
    omega
  | succ count ih =>
    rw [Nat.pow_succ, ← Nat.div_div_eq_div_mul, ← Nat.div_div_eq_div_mul] at front
    rw [laterBytes, laterBytes, List.cons_append, List.cons_append, List.cons_lt_cons_iff]
    have bits : m / 64 ^ count ≤ n / 64 ^ count := Nat.div_le_div_right less.le
    rcases bits.lt_or_eq with lower | same
    · exact .inl (byte_lt (by omega) (by omega))
    · exact .inr ⟨by rw [same], ih same⟩

/-- Codes of equally many bytes. -/
theorem bytes_lt (less : m < n) (count lead : Nat) (fits : lead + n / 64 ^ count < 256)
    (behind others : List UInt8) :
    UInt8.ofNat (lead + m / 64 ^ count) :: (laterBytes m count ++ behind) <
      UInt8.ofNat (lead + n / 64 ^ count) :: (laterBytes n count ++ others) := by
  rw [List.cons_lt_cons_iff]
  have bits : m / 64 ^ count ≤ n / 64 ^ count := Nat.div_le_div_right less.le
  rcases bits.lt_or_eq with lower | same
  · exact .inl (byte_lt (by omega) fits)
  · exact .inr ⟨by rw [same], later_bytes_lt less count same behind others⟩

/-- The codes from `low` up to `high` have the same number of bytes behind the first, which holds
the bits that are left, added to the byte that leads the range. -/
structure CodeRange where
  lead : Nat
  later : Nat
  low : Nat
  high : Nat
  deriving DecidableEq

def codeRanges : List CodeRange :=
  [⟨0, 0, 0, 128⟩, ⟨192, 1, 128, 2048⟩, ⟨224, 2, 2048, 65536⟩, ⟨240, 3, 65536, 1114112⟩]

private theorem range_fits : ∀ r ∈ codeRanges, r.lead + (r.high - 1) / 64 ^ r.later < 256 := by
  decide

/-- A range of lower codes has lower first bytes. -/
theorem ranges_apart : ∀ r ∈ codeRanges, ∀ q ∈ codeRanges, r = q ∨ q.high ≤ r.low ∨
    r.lead + (r.high - 1) / 64 ^ r.later < q.lead := by
  decide

private theorem encode_range (c : Char) : ∃ r ∈ codeRanges, r.low ≤ c.toNat ∧ c.toNat < r.high ∧
    String.utf8EncodeChar c =
      UInt8.ofNat (r.lead + c.toNat / 64 ^ r.later) :: laterBytes c.toNat r.later := by
  have code : c.val.toNat = c.toNat := rfl
  have bound : c.toNat < 1114112 := by
    obtain small | ⟨-, large⟩ := c.valid
    · exact small.trans (by decide)
    · exact large
  simp only [String.utf8EncodeChar, code]
  -- The bits behind the lead fit into the first byte, because the range ends where they do.
  split_ifs with one two three
  · refine ⟨⟨0, 0, 0, 128⟩, by decide, Nat.zero_le _, Nat.lt_succ_of_le one, ?_⟩
    simp [laterBytes]
  · refine ⟨⟨192, 1, 128, 2048⟩, by decide, Nat.lt_of_not_le one, Nat.lt_succ_of_le two, ?_⟩
    have bits : c.toNat / 64 % 32 = c.toNat / 64 := Nat.mod_eq_of_lt (by omega)
    simp [laterBytes, bits, Nat.add_comm]
  · refine ⟨⟨224, 2, 2048, 65536⟩, by decide, Nat.lt_of_not_le two, Nat.lt_succ_of_le three, ?_⟩
    have bits : c.toNat / 4096 % 16 = c.toNat / 4096 := Nat.mod_eq_of_lt (by omega)
    simp [laterBytes, bits, Nat.add_comm]
  · refine ⟨⟨240, 3, 65536, 1114112⟩, by decide, Nat.lt_of_not_le three, bound, ?_⟩
    have bits : c.toNat / 262144 % 8 = c.toNat / 262144 := Nat.mod_eq_of_lt (by omega)
    simp [laterBytes, bits, Nat.add_comm]

/-- Characters in order have their bytes in order, whatever follows. -/
theorem encode_char_lt (less : c < d) (behind others : List UInt8) :
    String.utf8EncodeChar c ++ behind < String.utf8EncodeChar d ++ others := by
  have codes : c.toNat < d.toNat := less
  obtain ⟨r, member, low, high, first⟩ := encode_range c
  obtain ⟨q, otherMember, otherLow, otherHigh, second⟩ := encode_range d
  have bits : c.toNat / 64 ^ r.later ≤ (r.high - 1) / 64 ^ r.later :=
    Nat.div_le_div_right (by omega)
  have fits : q.lead + d.toNat / 64 ^ q.later < 256 :=
    (Nat.add_le_add_left (Nat.div_le_div_right (by omega)) _).trans_lt (range_fits q otherMember)
  rw [first, second, List.cons_append, List.cons_append]
  obtain rfl | swapped | apart := ranges_apart r member q otherMember
  · exact bytes_lt codes _ _ fits behind others
  · omega
  · have below : r.lead + c.toNat / 64 ^ r.later < q.lead + d.toNat / 64 ^ q.later :=
      ((Nat.add_le_add_left bits _).trans_lt apart).trans_le (Nat.le_add_right _ _)
    exact List.cons_lt_cons_iff.mpr (.inl (byte_lt below fits))

private theorem encode_chars_lt (cs ds : List Char) (less : cs < ds) :
    cs.flatMap String.utf8EncodeChar < ds.flatMap String.utf8EncodeChar := by
  induction cs generalizing ds with
  | nil =>
    cases ds with
    | nil => exact absurd less (List.lt_irrefl [])
    | cons d ds =>
      obtain ⟨q, -, -, -, second⟩ := encode_range d
      rw [List.flatMap_cons, second]
      exact List.nil_lt_cons _ _
  | cons c cs ih =>
    cases ds with
    | nil => cases less
    | cons d ds =>
      rw [List.flatMap_cons, List.flatMap_cons]
      obtain lower | ⟨rfl, rest⟩ := List.cons_lt_cons_iff.mp less
      · exact encode_char_lt lower _ _
      · exact List.append_left_lt (ih ds rest)

/-- Strings in order have their bytes in order. -/
theorem utf8_lt (less : s < t) : utf8 s < utf8 t := by
  rw [utf8_chars, utf8_chars]
  exact encode_chars_lt _ _ (String.lt_iff_toList_lt.mp less)

end JsonQuery
