import UtilityCss.Proofs.Variant.Preorder

/-!
# Breakpoints by size

Variants of the breakpoint group are ranked by the sizes that they stand for. A size is read as a
number and a unit where the number is written in digits, points and dashes; a plus sign or an exponent
is taken for a part of the unit. At one size, the form of the variant decides.
-/

namespace UtilityCss

/-- How breakpoints are ranked among themselves. -/
def breakpointRanking : SizeRanking := ⟨"--breakpoint", ["", "min", "max"]⟩

/-- Whether a size is a number in digits, points and dashes with a unit of the table. -/
def IsMeasure (size : String) (x : Binary) (unit : String) : Prop :=
  ∃ number, Text.trim size = number ++ unit ∧ (∀ c ∈ number.toList, isSizeChar c) ∧
    readDouble? number = some x ∧ unit ∈ rankedUnits

/-- The size that a variant of the breakpoint group stands for. -/
def breakpointSize? (t : Theme) : Variant → Option String
  | .static name => t.resolveValue (some name) ["--breakpoint"]
  | .functional _ (some value) _ => t.size? "--breakpoint" value
  | _ => none

/-- The forms of breakpoints at one size: first the breakpoint itself, then `min` and then `max`. -/
def Variant.breakpointForm : Variant → Nat
  | .functional "min" _ _ => 1
  | .functional "max" _ _ => 2
  | _ => 0

namespace BreakpointSize

section Measure

variable {size size' unit : String} {x y : Binary}

theorem splitMeasure_append {number : String} (hnumber : ∀ c ∈ number.toList, isSizeChar c)
    (hunit : unit ∈ rankedUnits) :
    splitMeasure (fun c => c.isDigit || c == '.' || c == '-') (number ++ unit) = (number, unit) := by
  have htake : ∀ u ∈ rankedUnits, u.toList.takeWhile isSizeChar = [] := by decide
  have hdrop : ∀ u ∈ rankedUnits, u.toList.dropWhile isSizeChar = u.toList := by decide
  change (String.ofList ((number ++ unit).toList.takeWhile isSizeChar),
    String.ofList ((number ++ unit).toList.dropWhile isSizeChar)) = _
  rw [String.toList_append, List.takeWhile_append_of_pos hnumber, htake unit hunit, List.append_nil,
    List.dropWhile_append_of_pos hnumber, hdrop unit hunit, String.ofList_toList,
    String.ofList_toList]

theorem SizeKey.read_of_isMeasure (h : IsMeasure size x unit) :
    SizeKey.read size = ⟨rankedUnits.idxOf unit, x, Text.trim size⟩ := by
  obtain ⟨number, hsize, hnumber, hread, hunit⟩ := h
  have hsplit := splitMeasure_append hnumber hunit
  rw [← hsize] at hsplit
  unfold SizeKey.read
  dsimp only
  rw [hsplit]
  dsimp only
  rw [hread]

/-- Sizes of one unit are ordered by their numbers. -/
theorem orderSizes_of_isMeasure (h : IsMeasure size x unit) (h' : IsMeasure size' y unit)
    (hlt : x.order y = .lt) : orderSizes (some size) (some size') = .lt := by
  have hself : compare (rankedUnits.idxOf unit) (rankedUnits.idxOf unit) = .eq :=
    Nat.compare_eq_eq.2 rfl
  change (SizeKey.read size).order (SizeKey.read size') = .lt
  rw [SizeKey.read_of_isMeasure h, SizeKey.read_of_isMeasure h', SizeKey.order]
  dsimp only
  rw [hself, Ordering.eq_then, hlt]
  rfl

theorem orderSizes_of_trim_eq (h : Text.trim size = Text.trim size') :
    orderSizes (some size) (some size') = .eq := by
  have hread : SizeKey.read size = SizeKey.read size' := by
    unfold SizeKey.read
    rw [h]
  have hself : orderSizes (some size') (some size') = .eq := Std.ReflCmp.compare_self
  change (SizeKey.read size).order (SizeKey.read size') = .eq
  rw [hread]
  exact hself

end Measure

section Rank

variable {t : Theme} {a b : Variant} {size size' unit : String} {x y : Binary}

theorem isSimple_of_breakpointSize? (h : breakpointSize? t a = some size) : a.isSimple = true := by
  cases a with
  | static => rfl
  | functional => rfl
  | _ => cases h

theorem size_key_breakpointRanking (t : Theme) (a : Variant) :
    (breakpointRanking.key t a).size = breakpointSize? t a := by
  cases a with
  | functional root value modifier => cases value <;> rfl
  | _ => rfl

theorem root_key_breakpointRanking (h : breakpointSize? t a = some size) :
    (breakpointRanking.key t a).root = a.breakpointForm := by
  cases a with
  | functional root value modifier =>
    cases value with
    | none => cases h
    | some value =>
      by_cases hmin : root = "min"
      · subst hmin
        rfl
      · by_cases hmax : root = "max"
        · subst hmax
          rfl
        · change breakpointRanking.rootRank root = _
          have hform : (Variant.functional root (some value) modifier).breakpointForm = 0 := by
            simp [Variant.breakpointForm, hmin, hmax]
          rw [hform, SizeRanking.rootRank]
          by_cases hempty : root = ""
          · subst hempty
            rfl
          · rw [if_neg (by simp [breakpointRanking, hmin, hmax, hempty])]
  | _ => rfl

/-- The smaller size comes first, and at one size the form decides. -/
theorem order_breakpointRanking_lt (ha : breakpointSize? t a = some size)
    (hb : breakpointSize? t b = some size')
    (h : orderSizes (some size) (some size') = .lt ∨
      Text.trim size = Text.trim size' ∧ a.breakpointForm < b.breakpointForm) :
    breakpointRanking.order t a b = .lt := by
  rw [SizeRanking.order, size_key_breakpointRanking, size_key_breakpointRanking, ha, hb,
    root_key_breakpointRanking ha, root_key_breakpointRanking hb]
  rcases h with h | ⟨htrim, hform⟩
  · rw [h]
    rfl
  · rw [orderSizes_of_trim_eq htrim, Nat.compare_eq_lt.2 hform]
    rfl

end Rank

end BreakpointSize

open BreakpointSize

/-- In a group, the variants are in the order of the ranking. -/
theorem Variants.compare_of_order_lt {vs : Variants} {order : Nat} {r : SizeRanking} {a b : Variant}
    (hgroup : vs.rankings.lookup order = some r) (ha : vs.orderOf a = order)
    (hb : vs.orderOf b = order) (hsimple : a.isSimple = true) (hsimple' : b.isSimple = true)
    (h : r.order vs.theme a b = .lt) : vs.compare a b = .lt := by
  have hself : Ord.compare order order = .eq := Nat.compare_eq_eq.2 rfl
  rw [Variants.compare_simple vs hsimple hsimple', Variants.compareSimple, ha, hb, hself,
    Ordering.eq_then, Variants.orderInGroup, hgroup]
  change (r.order vs.theme a b).then _ = .lt
  rw [h]
  rfl

end UtilityCss
