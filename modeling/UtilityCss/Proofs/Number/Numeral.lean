import UtilityCss.Number.Numeral
import UtilityCss.Proofs.Number.Rounding
import UtilityCss.Proofs.Text.Ascii

/-!
# The values of numerals

A text is read as a number if it is a numeral or one of the words for infinity and for what is no
number, and these exclude each other. The size of a decimal by its digits bounds its value, so that
the decimals of common sizes are rounded, and not told by their size.
-/

namespace UtilityCss

namespace Chars

variable {s digits rest : List Char} {c : Char} {d : Decimal}

theorem mem_of_mem_cutSign (h : c ∈ (cutSign s).2) : c ∈ s := by
  unfold cutSign at h
  split at h
  · exact List.mem_cons_of_mem _ h
  · exact List.mem_cons_of_mem _ h
  · exact h

def isDecimalChar (c : Char) : Bool := c.isDigit || ['+', '-', '.', 'e', 'E'].contains c

theorem isDecimalChar_of_isDigit (h : c.isDigit) : isDecimalChar c := by simp [isDecimalChar, h]

theorem isDecimalChar_of_cutSign (h : ∀ c ∈ (cutSign s).2, isDecimalChar c) :
    ∀ c ∈ s, isDecimalChar c := by
  unfold cutSign at h
  split at h
  · exact List.forall_mem_cons.2 ⟨rfl, h⟩
  · exact List.forall_mem_cons.2 ⟨rfl, h⟩
  · exact h

theorem isDecimalChar_of_spanDigits (h : ∀ c ∈ (spanDigits s).2, isDecimalChar c) :
    ∀ c ∈ s, isDecimalChar c := by
  intro c hc
  rw [← List.takeWhile_append_dropWhile (p := Char.isDigit) (l := s), List.mem_append] at hc
  exact hc.elim (fun hc => isDecimalChar_of_isDigit (List.all_eq_true.1 List.all_takeWhile c hc))
    (h c)

private theorem isDecimalChar_of_cutFraction (h : ∀ c ∈ (cutFraction s).2, isDecimalChar c) :
    ∀ c ∈ s, isDecimalChar c := by
  unfold cutFraction at h
  split at h
  · exact List.forall_mem_cons.2 ⟨rfl, isDecimalChar_of_spanDigits h⟩
  · exact h

private theorem isDecimalChar_of_readExponent? (h : (readExponent? s).isSome) :
    ∀ c ∈ s, isDecimalChar c := by
  cases s with
  | nil => exact List.forall_mem_nil _
  | cons c s =>
    rw [readExponent?] at h
    split at h
    · next hc =>
      have hlead : isDecimalChar c := by
        rw [Bool.or_eq_true, beq_iff_eq, beq_iff_eq] at hc
        rcases hc with rfl | rfl <;> rfl
      rw [Option.isSome_map, readDigits?] at h
      split at h
      · exact absurd h Bool.false_ne_true
      · next hdigits =>
        rw [Bool.or_eq_true, not_or, Bool.not_eq_true', Bool.not_eq_false, List.all_eq_true]
          at hdigits
        exact List.forall_mem_cons.2 ⟨hlead,
          isDecimalChar_of_cutSign fun c hc => isDecimalChar_of_isDigit (hdigits.2 c hc)⟩
    · exact absurd h Bool.false_ne_true

theorem isDecimalChar_of_readDecimal? (h : readDecimal? s = some d) :
    ∀ c ∈ s, isDecimalChar c := by
  rw [readDecimal?] at h
  dsimp only at h
  split at h
  · cases h
  · have hexponent := congrArg Option.isSome h
    rw [Option.isSome_map] at hexponent
    exact isDecimalChar_of_cutSign (isDecimalChar_of_spanDigits (isDecimalChar_of_cutFraction
      (isDecimalChar_of_readExponent? hexponent)))

theorem toLower_ne_of_isDecimalChar (h : isDecimalChar c) : c.toLower ≠ 'n' := by
  refine of_forall_ofNat (P := fun c => isDecimalChar c → c.toLower ≠ 'n') (by decide) ?_ h
  rw [isDecimalChar, Bool.or_eq_true, Char.isDigit_iff_toNat, List.contains_iff_mem] at h
  rcases h with h | h
  · exact h.2.trans_lt (by decide)
  · simp only [List.mem_cons, List.not_mem_nil, or_false] at h
    rcases h with rfl | rfl | rfl | rfl | rfl <;> decide

/-- Whether a text is one of the words that are read although they write no finite number. -/
def IsNumberWord (s : List Char) : Prop :=
  (cutSign s).2.map Char.toLower ∈ ["nan".toList, "inf".toList, "infinity".toList]

instance : DecidablePred IsNumberWord := fun s =>
  inferInstanceAs (Decidable ((cutSign s).2.map Char.toLower ∈ ["nan".toList, "inf".toList,
    "infinity".toList]))

/-- All of the words have an `n`, and no numeral has one. -/
theorem not_isNumberWord (h : readDecimal? s = some d) : ¬ IsNumberWord s := by
  intro hword
  have hn : ∀ word ∈ ["nan".toList, "inf".toList, "infinity".toList], 'n' ∈ word := by decide
  obtain ⟨c, hc, hlower⟩ := List.mem_map.1 (hn _ hword)
  have hchar := isDecimalChar_of_readDecimal? h c (mem_of_mem_cutSign hc)
  exact toLower_ne_of_isDecimalChar hchar hlower

end Chars

section Reading

variable {f : BinaryFormat} {s : String}

theorem ofList_eq_iff {word : List Char} {s : String} :
    String.ofList word = s ↔ word = s.toList := by
  rw [← String.toList_inj, String.toList_ofList]

theorem Binary.read?_of_word (h : Chars.IsNumberWord s.toList) :
    ∃ x, Binary.read? f s = some x ∧ ∀ y, x ≠ .finite y := by
  rw [Chars.IsNumberWord, List.mem_cons, List.mem_pair] at h
  simp only [read?, beq_iff_eq, Bool.or_eq_true, ofList_eq_iff]
  rcases h with h | h
  · exact ⟨.nan, if_pos h, nofun⟩
  · refine ⟨_, (if_neg fun hnan => ?_).trans (if_pos h), nofun⟩
    rw [hnan] at h
    revert h
    decide

theorem Binary.read?_of_not_word (h : ¬ Chars.IsNumberWord s.toList) :
    Binary.read? f s = (Chars.readDecimal? s.toList).map (·.toBinary f) := by
  rw [Chars.IsNumberWord, List.mem_cons, List.mem_pair, not_or] at h
  simp only [read?, beq_iff_eq, Bool.or_eq_true, ofList_eq_iff]
  rw [if_neg h.1, if_neg h.2]

theorem Binary.isSome_read?_iff : (Binary.read? f s).isSome ↔
    Chars.IsNumberWord s.toList ∨ (Chars.readDecimal? s.toList).isSome := by
  by_cases h : Chars.IsNumberWord s.toList
  · obtain ⟨x, hx, -⟩ := read?_of_word (f := f) h
    simp [hx, h]
  · rw [read?_of_not_word h, Option.isSome_map]
    simp [h]

end Reading

namespace Decimal

variable {f : BinaryFormat} {d : Decimal} {y : Rat} {k : Int}

theorem abs_toRat (d : Decimal) : |d.toRat| = d.coefficient * 10 ^ d.exponent := by
  have hnonneg : (0 : Rat) ≤ d.coefficient * 10 ^ d.exponent :=
    mul_nonneg (Nat.cast_nonneg _) (zpow_pos Nat.ofNat_pos _).le
  rw [toRat]
  split
  · rw [abs_neg, abs_of_nonneg hnonneg]
  · rw [abs_of_nonneg hnonneg]

theorem toRat_eq_zero_iff : d.toRat = 0 ↔ d.coefficient = 0 := by
  rw [← abs_eq_zero, abs_toRat, mul_eq_zero, or_iff_left (zpow_pos Nat.ofNat_pos _).ne', Nat.cast_eq_zero]

theorem abs_toRat_lt (d : Decimal) : |d.toRat| < 10 ^ d.magnitude := by
  have hdigits := (Nat.length_toDigits_le_iff (b := 10) (by decide)
    (Nat.length_toDigits_pos (n := d.coefficient))).1 le_rfl
  have hcast : (d.coefficient : Rat) <
      10 ^ ((Nat.toDigits 10 d.coefficient).length : Int) := by
    rw [zpow_natCast]
    exact_mod_cast hdigits
  rw [abs_toRat, magnitude, zpow_add₀ (by norm_num)]
  exact mul_lt_mul_of_pos_right hcast (zpow_pos Nat.ofNat_pos _)

private theorem le_abs_toRat (h : d.coefficient ≠ 0) : 10 ^ (d.magnitude - 1) ≤ |d.toRat| := by
  obtain ⟨n, hn⟩ := Nat.exists_eq_succ_of_ne_zero
    (Nat.length_toDigits_pos (b := 10) (n := d.coefficient)).ne'
  have hdigits : 10 ^ n ≤ d.coefficient := by
    rcases Nat.eq_zero_or_pos n with rfl | hpos
    · exact Nat.pos_of_ne_zero h
    · refine Nat.le_of_not_lt fun hlt => ?_
      have hlength := (Nat.length_toDigits_le_iff (b := 10) (by decide) hpos).2 hlt
      omega
  have hexponent : d.magnitude - 1 = n + d.exponent := by
    rw [magnitude, hn]
    push_cast
    ring
  rw [abs_toRat, hexponent, zpow_add₀ (by norm_num), zpow_natCast]
  exact mul_le_mul_of_nonneg_right (by exact_mod_cast hdigits) (zpow_pos Nat.ofNat_pos _).le

/-- A decimal of a common size is rounded, and so is zero. -/
theorem toBinary_eq_round (h : d.coefficient ≠ 0 → -400 ≤ d.magnitude ∧ d.magnitude ≤ 400) :
    d.toBinary f = f.round d.toRat := by
  rw [toBinary]
  by_cases hzero : d.coefficient = 0
  · rw [toRat_eq_zero_iff.2 hzero]
    simp [hzero, BinaryFormat.round_zero]
  · obtain ⟨hlow, hhigh⟩ := h hzero
    simp [hzero, not_lt.2 hlow, not_lt.2 hhigh]

/-- A decimal between a power of ten and a larger one has a magnitude between the exponents. -/
theorem magnitude_of_abs_toRat {a b : Int} (hlow : 10 ^ a ≤ |d.toRat|)
    (hhigh : |d.toRat| < 10 ^ b) : a < d.magnitude ∧ d.magnitude ≤ b := by
  have hne : d.coefficient ≠ 0 := by
    intro hzero
    rw [toRat_eq_zero_iff.2 hzero, abs_zero] at hlow
    exact absurd hlow (not_le.2 (zpow_pos Nat.ofNat_pos a))
  have hbase : (1 : Rat) < 10 := by norm_num
  have hupper := (zpow_lt_zpow_iff_right₀ hbase).1 ((le_abs_toRat hne).trans_lt hhigh)
  exact ⟨(zpow_lt_zpow_iff_right₀ hbase).1 (hlow.trans_lt d.abs_toRat_lt), by omega⟩

theorem isNumber_of_toBinary_eq (h : d.toBinary f = .finite y) : f.IsNumber y := by
  rw [toBinary] at h
  split at h
  · cases h
    exact BinaryFormat.isNumber_of_round_eq f.round_zero
  · split at h
    · cases h
    · exact BinaryFormat.isNumber_of_round_eq h

end Decimal

end UtilityCss
