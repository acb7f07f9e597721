import Mathlib.Data.List.Induction
import UtilityCss.Proofs.Text.Ascii
import UtilityCss.Proofs.Text.Find
import UtilityCss.Value.Measure

/-!
# Fractions

A fraction is two whole numbers around a slash. Its denominator is not read as a number but compared
with the text `0`, so that a zero of two digits or more is let through.
-/

namespace UtilityCss

namespace Chars

variable {s : List Char} {c : Char}

/-- Whether a text is one digit or more. -/
def IsNumeral (s : List Char) : Prop := s ≠ [] ∧ ∀ c ∈ s, c.isDigit

instance : DecidablePred IsNumeral := fun s => inferInstanceAs (Decidable (s ≠ [] ∧ ∀ c ∈ s, c.isDigit))

theorem IsNumeral.notMem (h : IsNumeral s) (hc : c.isDigit = false) : c ∉ s := fun hmem =>
  absurd (h.2 c hmem) (Bool.eq_false_iff.1 hc)

theorem readDigits?_eq_some_iff {n : Nat} :
    readDigits? s = some n ↔ IsNumeral s ∧ decimalValue s = n := by
  rw [readDigits?, Option.ite_none_left_eq_some, Option.some_inj]
  simp [IsNumeral]

private theorem digitValue_eq_zero_iff (h : c.isDigit) : digitValue c = 0 ↔ c = '0' := by
  have hrange : 48 ≤ c.toNat ∧ c.toNat ≤ 57 := Char.isDigit_iff_toNat.1 h
  have hzero : '0'.toNat = 48 := by decide
  rw [digitValue, ← Char.toNat_inj, hzero]
  omega

/-- A numeral is zero if all its digits are. -/
theorem decimalValue_eq_zero_iff (h : ∀ c ∈ s, c.isDigit) :
    decimalValue s = 0 ↔ ∀ c ∈ s, c = '0' := by
  induction s using List.reverseRecOn with
  | nil => exact iff_of_true rfl (by simp)
  | append_singleton s c ih =>
    have hconcat : decimalValue (s ++ [c]) = 10 * decimalValue s + digitValue c := by
      rw [decimalValue, List.foldl_append]
      rfl
    rw [List.forall_mem_append, List.forall_mem_singleton] at h ⊢
    rw [hconcat, ← ih h.1, ← digitValue_eq_zero_iff h.2]
    omega

end Chars

variable {s a b : String}

/-- Whether a text is a numeral below `2 ^ 64`. -/
def IsWholeNumber (s : String) : Prop :=
  Chars.IsNumeral s.toList ∧ Chars.decimalValue s.toList < twoPow64

instance : DecidablePred IsWholeNumber := fun s =>
  inferInstanceAs (Decidable (Chars.IsNumeral s.toList ∧ Chars.decimalValue s.toList < twoPow64))

/-- Whether a text is zero in two digits or more. -/
def IsLongZero (s : String) : Prop := 1 < s.toList.length ∧ ∀ c ∈ s.toList, c = '0'

instance : DecidablePred IsLongZero := fun s =>
  inferInstanceAs (Decidable (1 < s.toList.length ∧ ∀ c ∈ s.toList, c = '0'))

private theorem isPositiveInteger_iff : isPositiveInteger s ↔ IsWholeNumber s := by
  rw [isPositiveInteger, readNat?, Text.startsWith, IsWholeNumber]
  by_cases hplus : ['+'] <+: s.toList
  · obtain ⟨rest, hrest⟩ := hplus
    rw [← hrest]
    exact iff_of_false (by simp) fun h => h.1.notMem (by decide) List.mem_cons_self
  · have hdrop : Chars.dropPlus s.toList = s.toList := by
      rw [Chars.dropPlus.eq_def]
      split
      · next h => exact absurd (h ▸ List.prefix_append ['+'] _) hplus
      · rfl
    have hlead : "+".toList.isPrefixOf s.toList = false :=
      Bool.eq_false_iff.2 (mt List.isPrefixOf_iff_prefix.1 hplus)
    rw [hdrop, hlead, Bool.not_false, Bool.and_true, Option.isSome_iff_exists]
    constructor
    · rintro ⟨n, hn⟩
      obtain ⟨hread, hbound⟩ := Option.filter_eq_some_iff.1 hn
      obtain ⟨hnumeral, rfl⟩ := Chars.readDigits?_eq_some_iff.1 hread
      exact ⟨hnumeral, of_decide_eq_true hbound⟩
    · rintro ⟨hnumeral, hbound⟩
      exact ⟨_, Option.filter_eq_some_iff.2
        ⟨Chars.readDigits?_eq_some_iff.2 ⟨hnumeral, rfl⟩, decide_eq_true hbound⟩⟩

private theorem IsWholeNumber.slash_notMem (h : IsWholeNumber s) : '/' ∉ s.toList :=
  h.1.notMem (by decide)

/-- Two whole numbers, of which the second is not written `0`. -/
theorem isFraction_append_iff (ha : '/' ∉ a.toList) :
    isFraction (a ++ "/" ++ b) ↔ IsWholeNumber a ∧ IsWholeNumber b ∧ b ≠ "0" := by
  have hcut : Text.cutAt (· == '/') (a ++ "/" ++ b) = some (a, b) :=
    Text.cutAt_char_eq_some_iff.2 ⟨ha, by simp⟩
  rw [isFraction, hcut]
  simp [isPositiveInteger_iff, and_assoc]

private theorem isFraction_iff_exists :
    isFraction s ↔ ∃ a b, s = a ++ "/" ++ b ∧ IsWholeNumber a ∧ IsWholeNumber b ∧ b ≠ "0" := by
  constructor
  · intro h
    cases hcut : Text.cutAt (· == '/') s with
    | none =>
      rw [isFraction, hcut] at h
      exact absurd h Bool.false_ne_true
    | some p =>
      obtain ⟨hslash, hs⟩ := Text.cutAt_char_eq_some_iff.1 hcut
      have hjoin : s = p.1 ++ "/" ++ p.2 := by
        rw [← String.toList_inj, hs]
        simp
      rw [hjoin] at h
      exact ⟨p.1, p.2, hjoin, (isFraction_append_iff hslash).1 h⟩
  · rintro ⟨a, b, rfl, h⟩
    exact (isFraction_append_iff h.1.slash_notMem).2 h

/-- A numeral that is not written `0` is not zero, or it is a zero of more than one digit. -/
theorem ne_zero_iff (hs : Chars.IsNumeral s.toList) :
    s ≠ "0" ↔ Chars.decimalValue s.toList ≠ 0 ∨ IsLongZero s := by
  rw [Ne, Ne, Chars.decimalValue_eq_zero_iff hs.2, ← String.toList_inj, IsLongZero]
  by_cases hzeros : ∀ c ∈ s.toList, c = '0'
  · have hlength : 0 < s.toList.length := List.length_pos_iff.2 hs.1
    have hone : s.toList = "0".toList ↔ s.toList.length = 1 := by
      constructor
      · exact congrArg List.length
      · intro h
        rw [List.eq_replicate_of_mem hzeros, h]
        rfl
    rw [hone]
    constructor
    · exact fun h => .inr ⟨by omega, hzeros⟩
    · rintro (h | h)
      · exact absurd hzeros h
      · omega
  · refine iff_of_true (fun h => hzeros ?_) (.inl hzeros)
    rw [h]
    decide

/-- A fraction is two whole numbers around a slash, of which the second is not zero or is a zero of
more than one digit. -/
theorem isFraction_iff : isFraction s ↔ ∃ a b, s = a ++ "/" ++ b ∧ IsWholeNumber a ∧
    IsWholeNumber b ∧ (Chars.decimalValue b.toList ≠ 0 ∨ IsLongZero b) := by
  rw [isFraction_iff_exists]
  refine exists₂_congr fun a b => and_congr_right fun _ => and_congr_right fun _ => ?_
  exact and_congr_right fun hb => ne_zero_iff hb.1

end UtilityCss
