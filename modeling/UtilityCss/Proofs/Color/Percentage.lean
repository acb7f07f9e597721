import UtilityCss.Proofs.Number.Numeral
import UtilityCss.Proofs.Text.Blank
import UtilityCss.Proofs.Text.Find
import UtilityCss.Utility.Recipe

/-!
# Percentages as modifiers

A plain modifier gives a colour a percentage. One that is written without `%` has to be between zero
and a hundred in steps of a quarter once it is rounded to single precision. What stands in front of
a written `%` only has to be read as a number, so that neither its range nor its steps are checked
and the words for infinity and for no number are let through.
-/

namespace UtilityCss

/-- Whether a number is between zero and a hundred in steps of a quarter. -/
def IsQuarterPercent (x : Rat) : Prop := ∃ k : Nat, k ≤ 400 ∧ x = k / 4

/-- Whether a decimal is rounded to single precision in steps of a quarter. -/
def Decimal.RoundsToQuarter (d : Decimal) : Prop :=
  ∃ y, d.toBinary .single = .finite y ∧ IsQuarterPercent y

/-- Whether a text is a numeral in steps of a quarter and `%`. -/
def IsQuarterPercentage (s : String) : Prop :=
  ∃ number d, s = number ++ "%" ∧ Chars.readDecimal? number.toList = some d ∧
    IsQuarterPercent d.toRat

/-- A modifier with a `%` behind it, if it has none. -/
def percentText (modifier : String) : String :=
  if Text.endsWith modifier "%" then modifier else modifier ++ "%"

/-- The plain modifiers that pass for percentages in steps of a quarter and are none. -/
inductive IsMisread : String → Prop where
  /-- A word that is read as a number. -/
  | word {number : String} (h : Chars.IsNumberWord number.toList) : IsMisread (number ++ "%")
  /-- A numeral out of the range or between two steps. -/
  | offStep {number : String} {d : Decimal} (h : Chars.readDecimal? number.toList = some d)
      (hstep : ¬ IsQuarterPercent d.toRat) : IsMisread (number ++ "%")
  /-- A numeral so close to a step that it is rounded to it. -/
  | rounded {number : String} {d : Decimal} (h : Chars.readDecimal? number.toList = some d)
      (hstep : ¬ IsQuarterPercent d.toRat) (hround : d.RoundsToQuarter) : IsMisread number

section Step

variable {d : Decimal} {x y : Rat}

theorem IsQuarterPercent.nonneg (h : IsQuarterPercent x) : 0 ≤ x := by
  obtain ⟨k, -, rfl⟩ := h
  positivity

theorem IsQuarterPercent.le (h : IsQuarterPercent x) : x ≤ 100 := by
  obtain ⟨k, hk, rfl⟩ := h
  have hcast : (k : Rat) ≤ 400 := by exact_mod_cast hk
  linarith

theorem lt_limit_single (h : |x| ≤ 400) : |x| < BinaryFormat.single.limit := by
  have hlimit : (400 : Rat) < BinaryFormat.single.limit := by
    norm_num [BinaryFormat.limit, BinaryFormat.single]
  exact h.trans_lt hlimit

theorem IsQuarterPercent.isNumber (h : IsQuarterPercent x) : BinaryFormat.single.IsNumber x := by
  have hlimit := lt_limit_single (x := x) (by
    rw [abs_of_nonneg h.nonneg]
    linarith [h.le])
  obtain ⟨k, hk, rfl⟩ := h
  refine ⟨k, -2, ?_, ?_, by decide, hlimit⟩
  · rw [zpow_neg, div_eq_mul_inv, Int.cast_natCast]
    norm_num
  · have hdigits : (400 : Int) ≤ 2 ^ BinaryFormat.single.digits := by decide
    rw [Nat.abs_cast]
    omega

/-- Four times a percentage is exact, so that its steps are told as they are. -/
theorem isQuarterStep_iff (hy : BinaryFormat.single.IsNumber y) (hnonneg : 0 ≤ y) (hle : y ≤ 100) :
    (Binary.finite y).isQuarterStep .single ↔ (y * 4).den = 1 := by
  have hfour : y * 4 = y * 2 ^ 2 := by norm_num
  have hexact : BinaryFormat.single.IsNumber (y * 4) := by
    rw [hfour]
    refine hy.mul_two_pow 2 (lt_limit_single ?_)
    rw [abs_of_nonneg (by positivity)]
    linarith
  rw [Binary.isQuarterStep, Binary.scale, BinaryFormat.round_eq_self (by decide) hexact,
    Binary.isWhole, beq_iff_eq]

private theorem isPercentStep_finite_iff (hy : BinaryFormat.single.IsNumber y) :
    isPercentStep (.finite y) ↔ IsQuarterPercent y := by
  rw [isPercentStep, Bool.and_eq_true, Bool.and_eq_true, Binary.isNonnegative, Binary.isAtMost,
    decide_eq_true_eq, decide_eq_true_eq]
  constructor
  · rintro ⟨⟨hnonneg, hle⟩, hstep⟩
    have hwhole := (Rat.den_eq_one_iff _).1 ((isQuarterStep_iff hy hnonneg hle).1 hstep)
    obtain ⟨k, hk⟩ := Int.eq_ofNat_of_zero_le (Rat.num_nonneg.2 (by positivity : 0 ≤ y * 4))
    rw [hk, Int.cast_natCast] at hwhole
    have hbound : (k : Rat) ≤ 400 := by linarith
    exact ⟨k, by exact_mod_cast hbound, by linarith⟩
  · intro h
    refine ⟨⟨h.nonneg, h.le⟩, (isQuarterStep_iff hy h.nonneg h.le).2 ?_⟩
    obtain ⟨k, -, rfl⟩ := h
    rw [div_mul_cancel₀ _ (by norm_num)]
    exact Rat.den_natCast k

theorem isPercentStep_eq_false {x : Binary} (h : ∀ y, x ≠ .finite y) : isPercentStep x = false := by
  cases x with
  | nan => rfl
  | infinite negative => cases negative <;> rfl
  | finite y => exact absurd rfl (h y)

theorem isPercentStep_toBinary_iff : isPercentStep (d.toBinary .single) ↔ d.RoundsToQuarter := by
  rw [Decimal.RoundsToQuarter]
  cases hd : d.toBinary .single with
  | finite y => simp [isPercentStep_finite_iff (Decimal.isNumber_of_toBinary_eq hd)]
  | nan => simp [isPercentStep_eq_false]
  | infinite => simp [isPercentStep_eq_false]

/-- A step of a quarter is a number of single precision, to which it is rounded. -/
theorem roundsToQuarter_of_isQuarterPercent (h : IsQuarterPercent d.toRat) : d.RoundsToQuarter := by
  refine ⟨d.toRat, ?_, h⟩
  rw [Decimal.toBinary_eq_round, BinaryFormat.round_eq_self (by decide) h.isNumber]
  intro hne
  have hhigh : |d.toRat| < 10 ^ (3 : Int) := by
    rw [abs_of_nonneg h.nonneg]
    norm_num
    linarith [h.le]
  have hlow : (10 : Rat) ^ (-1 : Int) ≤ |d.toRat| := by
    rw [abs_of_nonneg h.nonneg]
    obtain ⟨k, -, hk⟩ := h
    have hpos : k ≠ 0 := by
      rintro rfl
      exact hne (Decimal.toRat_eq_zero_iff.1 (by simpa using hk))
    have hone : (1 : Rat) ≤ k := by exact_mod_cast Nat.one_le_iff_ne_zero.2 hpos
    rw [hk]
    norm_num
    linarith
  have hmagnitude := Decimal.magnitude_of_abs_toRat hlow hhigh
  omega

private theorem Decimal.exists_eq_div (h : -5 ≤ d.exponent) : ∃ n : Int, d.toRat = n / 10 ^ 5 := by
  obtain ⟨j, hj⟩ := Int.le.dest h
  have hpower : (10 : Rat) ^ d.exponent = 10 ^ j / 10 ^ 5 := by
    rw [← hj, zpow_add₀ (by norm_num), zpow_natCast, zpow_neg, mul_comm, div_eq_mul_inv]
    norm_num
  rw [toRat, hpower, ← mul_div_assoc]
  split
  · exact ⟨-(d.coefficient * 10 ^ j), by push_cast; ring⟩
  · exact ⟨d.coefficient * 10 ^ j, by push_cast; ring⟩

/-- Rounding moves a number near a percentage by less than the fifth decimal. -/
theorem abs_sub_lt_of_round (h : BinaryFormat.single.round x = .finite y) (hy : |y| ≤ 100) :
    |y - x| < 1 / 10 ^ 5 := by
  have herror := BinaryFormat.abs_round_sub_le h
  have hleast : (2 : Rat) ^ BinaryFormat.single.minExp ≤ 1 / 10 ^ 10 := by
    norm_num [BinaryFormat.single]
  have hpart : (2 : Rat) ^ (1 - BinaryFormat.single.digits : Int) = 1 / 2 ^ 23 := by
    norm_num [BinaryFormat.single]
  have htriangle := abs_sub_abs_le_abs_sub x y
  rw [abs_sub_comm] at htriangle
  rw [hpart] at herror
  linarith

theorem exists_near_of_roundsToQuarter (h : d.RoundsToQuarter) :
    ∃ x, IsQuarterPercent x ∧ |x - d.toRat| < 1 / 10 ^ 5 := by
  obtain ⟨y, hy, hstep⟩ := h
  refine ⟨y, hstep, ?_⟩
  rw [Decimal.toBinary] at hy
  split at hy
  · next hsmall =>
    cases hy
    rw [zero_sub, abs_neg]
    rw [Bool.or_eq_true, beq_iff_eq, decide_eq_true_eq] at hsmall
    rcases hsmall with hzero | hsmall
    · rw [Decimal.toRat_eq_zero_iff.2 hzero, abs_zero]
      positivity
    · calc |d.toRat| < 10 ^ d.magnitude := d.abs_toRat_lt
        _ ≤ 10 ^ (-5 : Int) := zpow_le_zpow_right₀ (by norm_num) (by omega)
        _ = 1 / 10 ^ 5 := by norm_num
  · split at hy
    · cases hy
    · exact abs_sub_lt_of_round hy (by rw [abs_of_nonneg hstep.nonneg]; exact hstep.le)

/-- Up to five decimals a numeral that is rounded to a step is the step. -/
theorem isQuarterPercent_of_roundsToQuarter (hexponent : -5 ≤ d.exponent)
    (h : d.RoundsToQuarter) : IsQuarterPercent d.toRat := by
  obtain ⟨x, hstep, hnear⟩ := exists_near_of_roundsToQuarter h
  obtain ⟨n, hn⟩ := Decimal.exists_eq_div hexponent
  obtain ⟨k, hk, rfl⟩ := hstep
  have hsub : (k / 4 : Rat) - d.toRat = ((25000 * k - n : Int) : Rat) / 10 ^ 5 := by
    rw [hn]
    push_cast
    ring
  rw [hsub, abs_div, abs_of_pos (by positivity : (0 : Rat) < 10 ^ 5),
    div_lt_div_iff_of_pos_right (by positivity), ← Int.cast_abs] at hnear
  have hequal : 25000 * (k : Int) - n = 0 := Int.abs_lt_one_iff.1 (by exact_mod_cast hnear)
  rw [hequal, Int.cast_zero, zero_div, sub_eq_zero] at hsub
  exact ⟨k, hk, hsub.symm⟩

end Step

section Modifier

variable {m number p : String} {d : Decimal}

theorem isQuarterPercentage_append_iff : IsQuarterPercentage (number ++ "%") ↔
    ∃ d, Chars.readDecimal? number.toList = some d ∧ IsQuarterPercent d.toRat := by
  constructor
  · rintro ⟨number', d, heq, h⟩
    obtain rfl := String.append_left_inj _ |>.1 heq
    exact ⟨d, h⟩
  · rintro ⟨d, h⟩
    exact ⟨number, d, rfl, h⟩

theorem not_isQuarterPercentage_of_lt (h : Chars.readDecimal? number.toList = some d)
    (hlarge : 100 < d.toRat) : ¬ IsQuarterPercentage (number ++ "%") := by
  rw [isQuarterPercentage_append_iff, h]
  rintro ⟨d', hd', hstep⟩
  cases hd'
  exact absurd hstep.le (not_le.2 hlarge)

theorem percentText_append (number : String) : percentText (number ++ "%") = number ++ "%" :=
  if_pos (Text.endsWith_iff.2 ⟨number, rfl⟩)

theorem readDecimal?_append (number : String) :
    Chars.readDecimal? (number ++ "%").toList = none := by
  refine Option.eq_none_iff_forall_ne_some.2 fun d h => ?_
  have hchar := Chars.isDecimalChar_of_readDecimal? h '%' (by simp)
  exact absurd hchar (by decide)

private theorem percentText_of_readDecimal? (h : Chars.readDecimal? m.toList = some d) :
    percentText m = m ++ "%" := by
  refine if_neg fun hend => ?_
  obtain ⟨number, rfl⟩ := Text.endsWith_iff.1 hend
  rw [readDecimal?_append] at h
  cases h

private theorem isMisread_append_iff :
    IsMisread (number ++ "%") ↔ Chars.IsNumberWord number.toList ∨
    ∃ d, Chars.readDecimal? number.toList = some d ∧ ¬ IsQuarterPercent d.toRat := by
  constructor
  · generalize hm : number ++ "%" = m
    rintro (h | ⟨h, hstep⟩ | ⟨h, -, -⟩)
    · obtain rfl := String.append_left_inj _ |>.1 hm
      exact .inl h
    · obtain rfl := String.append_left_inj _ |>.1 hm
      exact .inr ⟨_, h, hstep⟩
    · rw [← hm, readDecimal?_append] at h
      cases h
  · rintro (h | ⟨d, h, hstep⟩)
    · exact .word h
    · exact .offStep h hstep

theorem isMisread_iff_of_not_endsWith (hm : ∀ number, m ≠ number ++ "%") : IsMisread m ↔
    ∃ d, Chars.readDecimal? m.toList = some d ∧ ¬ IsQuarterPercent d.toRat ∧ d.RoundsToQuarter := by
  constructor
  · rintro (h | ⟨h, -⟩ | ⟨h, hstep, hround⟩)
    · exact absurd rfl (hm _)
    · exact absurd rfl (hm _)
    · exact ⟨_, h, hstep, hround⟩
  · rintro ⟨d, h, hstep, hround⟩
    exact .rounded h hstep hround

private theorem not_isQuarterPercentage_of_isMisread (h : IsMisread m) :
    ¬ IsQuarterPercentage (percentText m) := by
  cases h with
  | word hword =>
    rw [percentText_append, isQuarterPercentage_append_iff]
    rintro ⟨d, hd, -⟩
    exact Chars.not_isNumberWord hd hword
  | offStep h hstep =>
    rw [percentText_append, isQuarterPercentage_append_iff]
    rintro ⟨d, hd, hquarter⟩
    cases h.symm.trans hd
    exact hstep hquarter
  | rounded h hstep hround =>
    rw [percentText_of_readDecimal? h, isQuarterPercentage_append_iff]
    rintro ⟨d, hd, hquarter⟩
    cases h.symm.trans hd
    exact hstep hquarter

private theorem trim_of_isPlainName (h : isPlainName m) : Text.trim m = m := by
  rw [isPlainName, Bool.and_eq_true, Text.all, List.all_eq_true] at h
  have hblank : ∀ c ∈ m.toList, isBlank c = false := fun c hc => isBlank_eq_false_of
    (p := fun c => c.isAlphanum || ['-', '_', '.', '%'].contains c) (by decide) (h.2 c hc)
  rw [Text.trim, Chars.trim_eq_self_of_forall hblank, String.ofList_toList]

/-- What stands in front of a `%` only has to be read. -/
theorem isSome_readSingle?_iff : (readSingle? number).isSome ↔
    IsQuarterPercentage (number ++ "%") ∨ IsMisread (number ++ "%") := by
  rw [readSingle?, Binary.isSome_read?_iff, isQuarterPercentage_append_iff, isMisread_append_iff,
    Option.isSome_iff_exists]
  constructor
  · rintro (h | ⟨d, hd⟩)
    · exact .inr (.inl h)
    · by_cases hquarter : IsQuarterPercent d.toRat
      · exact .inl ⟨d, hd, hquarter⟩
      · exact .inr (.inr ⟨d, hd, hquarter⟩)
  · rintro (⟨d, hd, -⟩ | h | ⟨d, hd, -⟩)
    · exact .inr ⟨d, hd⟩
    · exact .inl h
    · exact .inr ⟨d, hd⟩

theorem isPercentStep_readSingle?_iff (hm : ∀ number, m ≠ number ++ "%") :
    (∃ x, readSingle? m = some x ∧ isPercentStep x) ↔
      IsQuarterPercentage (m ++ "%") ∨ IsMisread m := by
  rw [isQuarterPercentage_append_iff, isMisread_iff_of_not_endsWith hm]
  by_cases hword : Chars.IsNumberWord m.toList
  · obtain ⟨x, hx, hfinite⟩ := Binary.read?_of_word (f := .single) hword
    refine iff_of_false ?_ ?_
    · rintro ⟨x', hx', hstep⟩
      cases hx.symm.trans hx'
      exact Bool.eq_false_iff.1 (isPercentStep_eq_false hfinite) hstep
    · rintro (⟨d, hd, -⟩ | ⟨d, hd, -⟩) <;> exact Chars.not_isNumberWord hd hword
  · rw [readSingle?, Binary.read?_of_not_word hword]
    constructor
    · rintro ⟨x, hx, hstep⟩
      obtain ⟨d, hd, rfl⟩ := Option.map_eq_some_iff.1 hx
      by_cases hquarter : IsQuarterPercent d.toRat
      · exact .inl ⟨d, hd, hquarter⟩
      · exact .inr ⟨d, hd, hquarter, isPercentStep_toBinary_iff.1 hstep⟩
    · rintro (⟨d, hd, hquarter⟩ | ⟨d, hd, -, hround⟩)
      · exact ⟨_, by rw [hd]; rfl,
          isPercentStep_toBinary_iff.2 (roundsToQuarter_of_isQuarterPercent hquarter)⟩
      · exact ⟨_, by rw [hd]; rfl, isPercentStep_toBinary_iff.2 hround⟩

theorem normalizeAlpha_of_isPlainName (hm : isPlainName m) : normalizeAlpha m false =
    match Text.beforeTail? "%" m with
    | some number => (readSingle? number).map fun _ => m
    | none => (readSingle? m).bind fun x => if isPercentStep x then some (m ++ "%") else none := by
  have hnonempty : m.isEmpty = false := by
    rw [isPlainName, Bool.and_eq_true] at hm
    simpa using hm.1
  rw [normalizeAlpha]
  simp only [trim_of_isPlainName hm, hnonempty, Bool.false_eq_true, if_false]
  cases readSingle? m <;> rfl

theorem normalizeAlpha_plain_iff (hm : isPlainName m) : normalizeAlpha m false = some p ↔
    p = percentText m ∧ (IsQuarterPercentage p ∨ IsMisread m) := by
  rw [normalizeAlpha_of_isPlainName hm]
  cases hcut : Text.beforeTail? "%" m with
  | some number =>
    obtain rfl := Text.beforeTail?_eq_some_iff.1 hcut
    rw [percentText_append, Option.map_eq_some_iff]
    constructor
    · rintro ⟨x, hx, rfl⟩
      exact ⟨rfl, isSome_readSingle?_iff.1 (Option.isSome_of_eq_some hx)⟩
    · rintro ⟨rfl, h⟩
      obtain ⟨x, hx⟩ := Option.isSome_iff_exists.1 (isSome_readSingle?_iff.2 h)
      exact ⟨x, hx, rfl⟩
  | none =>
    have htail (number : String) : m ≠ number ++ "%" := fun h => by
      rw [Text.beforeTail?_eq_some_iff.2 h] at hcut
      cases hcut
    have htext : percentText m = m ++ "%" := if_neg fun hend => by
      obtain ⟨number, hnumber⟩ := Text.endsWith_iff.1 hend
      exact htail number hnumber
    rw [htext, Option.bind_eq_some_iff]
    constructor
    · rintro ⟨x, hx, h⟩
      obtain ⟨hstep, hp⟩ := Option.ite_none_right_eq_some.1 h
      cases hp
      exact ⟨rfl, (isPercentStep_readSingle?_iff htail).1 ⟨x, hx, hstep⟩⟩
    · rintro ⟨rfl, h⟩
      obtain ⟨x, hx, hstep⟩ := (isPercentStep_readSingle?_iff htail).2 h
      exact ⟨x, hx, if_pos hstep⟩

private theorem isSome_normalizeAlpha_iff (hm : isPlainName m) : (normalizeAlpha m false).isSome ↔
    IsQuarterPercentage (percentText m) ∨ IsMisread m := by
  simp only [Option.isSome_iff_exists, normalizeAlpha_plain_iff hm, exists_eq_left]

/-- Only more than five decimals are rounded to a step, and only to one that is near. -/
theorem near_of_isMisread (h : Chars.readDecimal? m.toList = some d) (hm : IsMisread m) :
    d.exponent < -5 ∧ ∃ x, IsQuarterPercent x ∧ |x - d.toRat| < 1 / 10 ^ 5 := by
  have htail (number : String) : m ≠ number ++ "%" := by
    rintro rfl
    rw [readDecimal?_append] at h
    cases h
  obtain ⟨d', hd', hstep, hround⟩ := (isMisread_iff_of_not_endsWith htail).1 hm
  cases h.symm.trans hd'
  refine ⟨not_le.1 fun hexponent => ?_, exists_near_of_roundsToQuarter hround⟩
  exact hstep (isQuarterPercent_of_roundsToQuarter hexponent hround)

end Modifier

section Color

variable {t : Theme} {c : Candidate} {keys : List String} {m : String}

/-- Whether a candidate names a colour that can be made transparent. -/
def Candidate.HasColor (c : Candidate) (t : Theme) (keys : List String) : Prop :=
  ∃ value base, c.value? = some value ∧ baseColor? t keys value = some base ∧ base ≠ "inherit"

private theorem isSome_resolveColor?_iff {value : CandidateValue} {modifier : Argument} :
    (resolveColor? t keys value (some modifier)).isSome ↔
      (∃ base, baseColor? t keys value = some base ∧ base ≠ "inherit") ∧
        (alphaOf? t modifier).isSome := by
  cases hbase : baseColor? t keys value with
  | none => simp [resolveColor?, hbase]
  | some base =>
    by_cases hinherit : base = "inherit"
    · simp [resolveColor?, hbase, hinherit]
    · cases halpha : alphaOf? t modifier <;> simp [resolveColor?, hbase, hinherit, halpha]

private theorem isSome_colored_iff {output : List Template}
    (hmodifier : c.modifier? = some (.named m))
    (hopacity : t.resolve (some m) ["--opacity"] = none) :
    ((Recipe.colored keys output).nodes? t c).isSome ↔
      c.negative = false ∧ c.HasColor t keys ∧ (normalizeAlpha m false).isSome := by
  have halpha : alphaOf? t (.named m) = normalizeAlpha m false := by
    simp [alphaOf?, hopacity]
  rw [Recipe.nodes?, Candidate.HasColor, ← halpha, hmodifier]
  cases hvalue : c.value? with
  | none => simp
  | some value =>
    have hcolor : (resolveColor? t keys value (some (.named m))).isSome ↔ _ :=
      isSome_resolveColor?_iff
    cases hresolve : resolveColor? t keys value (some (.named m)) <;>
      cases hnegative : c.negative <;> simp_all

/-- A plain modifier is taken for a percentage if it is one in steps of a quarter or is misread, and
only these two give a colour transparency beside the opacities of the theme. So the percentages are
in steps of a quarter unless one is misread. A numeral without `%` is misread only if it has more
than five decimals and is near to a step. -/
theorem normalizeAlpha_isQuarterPercentage_iff (hm : isPlainName m) :
    (∀ p, normalizeAlpha m false = some p ↔
      p = percentText m ∧ (IsQuarterPercentage p ∨ IsMisread m)) ∧
    ((∀ p, normalizeAlpha m false = some p → IsQuarterPercentage p) ↔ ¬ IsMisread m) ∧
    (∀ d, Chars.readDecimal? m.toList = some d → IsMisread m →
      d.exponent < -5 ∧ ∃ x, IsQuarterPercent x ∧ |x - d.toRat| < 1 / 10 ^ 5) ∧
    ∀ (t : Theme) (c : Candidate) (keys : List String) (output : List Template),
      c.modifier? = some (.named m) → t.resolve (some m) ["--opacity"] = none →
        (((Recipe.colored keys output).nodes? t c).isSome ↔ c.negative = false ∧ c.HasColor t keys ∧
          (IsQuarterPercentage (percentText m) ∨ IsMisread m)) := by
  refine ⟨fun p => normalizeAlpha_plain_iff hm, ⟨?_, ?_⟩, fun d => near_of_isMisread, ?_⟩
  · intro h hmisread
    exact not_isQuarterPercentage_of_isMisread hmisread
      (h _ ((normalizeAlpha_plain_iff hm).2 ⟨rfl, .inr hmisread⟩))
  · intro hmisread p hp
    exact ((normalizeAlpha_plain_iff hm).1 hp).2.resolve_right hmisread
  · intro t c keys output hmodifier hopacity
    rw [isSome_colored_iff hmodifier hopacity, isSome_normalizeAlpha_iff hm]

/-- A percentage with one decimal. -/
theorem normalizeAlpha_isQuarterPercentage_iff_half : isPlainName "12.5" ∧ ¬ IsMisread "12.5" ∧
    ∀ p, normalizeAlpha "12.5" false = some p → IsQuarterPercentage p := by
  have hplain : isPlainName "12.5" := by decide
  have hread : Chars.readDecimal? "12.5".toList = some ⟨false, 125, -1⟩ := by decide
  obtain ⟨-, hexact, hnear, -⟩ := normalizeAlpha_isQuarterPercentage_iff hplain
  have hmisread : ¬ IsMisread "12.5" := fun h => absurd (hnear _ hread h).1 (by decide)
  exact ⟨hplain, hmisread, hexact.2 hmisread⟩

/-- Of a number that is written with `%` neither the kind nor the range is checked, and of one
without it only what is left of it in single precision. -/
theorem normalizeAlpha_unchecked_percent :
    (isPlainName "nan%" ∧ normalizeAlpha "nan%" false = some "nan%" ∧
      ¬ IsQuarterPercentage "nan%") ∧
    (isPlainName "200%" ∧ normalizeAlpha "200%" false = some "200%" ∧
      ¬ IsQuarterPercentage "200%") ∧
    (isPlainName "100.000001" ∧ normalizeAlpha "100.000001" false = some "100.000001%" ∧
      ¬ IsQuarterPercentage "100.000001%") ∧
    resolveColor? {} [] (.named "current" none) (some (.named "nan%")) =
      some "color-mix(in srgb, currentcolor nan%, transparent)" := by
  have hword : ¬ IsQuarterPercentage ("nan" ++ "%") := by
    have hread : Chars.readDecimal? "nan".toList = none := by decide
    rw [isQuarterPercentage_append_iff, hread]
    simp
  have hhundred : ¬ IsQuarterPercentage ("200" ++ "%") :=
    not_isQuarterPercentage_of_lt (d := ⟨false, 200, 0⟩) (by decide) (by norm_num [Decimal.toRat])
  have hdecimals : ¬ IsQuarterPercentage ("100.000001" ++ "%") :=
    not_isQuarterPercentage_of_lt (d := ⟨false, 100000001, -6⟩) (by decide)
      (by norm_num [Decimal.toRat])
  exact ⟨⟨by decide, by decide, hword⟩, ⟨by decide, by decide, hhundred⟩,
    ⟨by decide, by decide +kernel, hdecimals⟩, by decide⟩

end Color

end UtilityCss
