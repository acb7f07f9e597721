import Mathlib.Algebra.Order.Field.Rat
import Mathlib.Tactic.Linarith
import UtilityCss.Proofs.Number.Numeral
import UtilityCss.Variant.Order

/-!
# The order of sizes

A run of digits, points and dashes never reads as `nan`, so the numbers of sizes are totally
ordered and `orderSizes` is a total preorder.
-/

namespace UtilityCss

open Std (TransCmp OrientedCmp TransOrd OrientedOrd LawfulEqOrd)

/-- A comparison of images inherits the laws of the comparison. -/
theorem transCmp_comap {α β : Type} (cmp : β → β → Ordering) [h : TransCmp cmp] (f : α → β) :
    TransCmp fun a b => cmp (f a) (f b) where
  eq_swap := h.eq_swap
  isLE_trans := h.isLE_trans

/-- A comparison by one comparison first and by another where that one finds no difference. -/
theorem transCmp_lex {α : Type} {cmp₁ cmp₂ : α → α → Ordering} (h₁ : TransCmp cmp₁)
    (h₂ : TransCmp cmp₂) : TransCmp fun a b => (cmp₁ a b).then (cmp₂ a b) :=
  inferInstanceAs (TransCmp (compareLex cmp₁ cmp₂))

/-- A lexicographic comparison whose second part depends on the common first key. -/
theorem transCmp_then {α κ : Type} [Ord κ] [TransOrd κ] [LawfulEqOrd κ] (key : α → κ)
    (cmp : κ → α → α → Ordering) (h : ∀ k, TransCmp (cmp k)) :
    TransCmp fun a b => (compare (key a) (key b)).then (cmp (key a) a b) where
  eq_swap {a b} := by
    rw [Ordering.swap_then, ← OrientedOrd.eq_swap]
    cases hk : compare (key a) (key b) with
    | lt => rfl
    | gt => rfl
    | eq => rw [LawfulEqOrd.eq_of_compare hk, (h (key b)).eq_swap]
  isLE_trans {a b c} hab hbc := by
    rw [Ordering.isLE_then_iff_and] at hab hbc ⊢
    refine ⟨TransOrd.isLE_trans hab.1 hbc.1, ?_⟩
    rcases hab.2 with hab' | hab'
    · exact .inl (TransCmp.lt_of_lt_of_isLE hab' hbc.1)
    · rcases hbc.2 with hbc' | hbc'
      · exact .inl (TransCmp.lt_of_isLE_of_lt hab.1 hbc')
      · cases hk : compare (key a) (key b) with
        | lt => exact .inl (TransCmp.lt_of_lt_of_isLE hk hbc.1)
        | gt => simp [hk] at hab
        | eq =>
          rw [LawfulEqOrd.eq_of_compare hk] at hab' ⊢
          exact .inr ((h (key b)).isLE_trans hab' hbc')

theorem transCmp_option {α : Type} {cmp : α → α → Ordering} (h : TransCmp cmp)
    {cmpOption : Option α → Option α → Ordering}
    (hnone : cmpOption none none = .eq) (hleft : ∀ b, cmpOption none (some b) = .lt)
    (hright : ∀ a, cmpOption (some a) none = .gt)
    (hsome : ∀ a b, cmpOption (some a) (some b) = cmp a b) : TransCmp cmpOption where
  eq_swap {a b} := by
    cases a <;> cases b <;> simp only [hnone, hleft, hright, hsome] <;> first
      | rfl
      | exact OrientedCmp.eq_swap
  isLE_trans {a b c} hab hbc := by
    cases a <;> cases b <;> cases c <;> simp only [hnone, hleft, hright, hsome] at * <;> first
      | rfl
      | contradiction
      | exact TransCmp.isLE_trans hab hbc

namespace Binary

/-- The order of two numbers neither of which is `nan`. -/
def orderNumbers (x y : { x : Binary // x ≠ .nan }) : Ordering := x.1.order y.1

private theorem order_swap (x y : Binary) : x.order y = (y.order x).swap := by
  cases x with
  | nan => cases y <;> rfl
  | infinite a =>
    cases y with
    | nan => rfl
    | infinite b => cases a <;> cases b <;> rfl
    | finite y => cases a <;> rfl
  | finite x =>
    cases y with
    | nan => rfl
    | infinite b => cases b <;> rfl
    | finite y =>
      rcases lt_trichotomy x y with h | h | h
      · simp [order, h, not_lt.2 h.le]
      · simp [order, h]
      · simp [order, h, not_lt.2 h.le]

private theorem isLE_order_finite {x y : Rat} :
    ((finite x).order (finite y)).isLE = true ↔ x ≤ y := by
  rcases lt_trichotomy x y with h | h | h
  · simp [order, h, h.le]
  · simp [order, h]
  · simp [order, h, not_lt.2 h.le]

instance : TransCmp orderNumbers where
  eq_swap := order_swap _ _
  isLE_trans {x y z} hxy hyz := by
    obtain ⟨x, hx⟩ := x
    obtain ⟨y, hy⟩ := y
    obtain ⟨z, hz⟩ := z
    simp only [orderNumbers] at hxy hyz ⊢
    rcases x with _ | (_ | _) | x
    · exact absurd rfl hx
    all_goals rcases y with _ | (_ | _) | y
    all_goals first | exact absurd rfl hy | skip
    all_goals rcases z with _ | (_ | _) | z
    all_goals first | exact absurd rfl hz | rfl | contradiction | skip
    rw [isLE_order_finite] at hxy hyz ⊢
    exact le_trans hxy hyz

private theorem round_ne_nan (f : BinaryFormat) (x : Rat) : f.round x ≠ .nan := by
  rw [BinaryFormat.round]
  split
  · simp
  · dsimp only
    split <;> simp

end Binary

private theorem Decimal.toBinary_ne_nan (f : BinaryFormat) (d : Decimal) : d.toBinary f ≠ .nan := by
  rw [Decimal.toBinary]
  split
  · simp
  · split
    · simp
    · exact Binary.round_ne_nan f _

/-- The characters that the number of a size is made of. -/
def isSizeChar (c : Char) : Bool := c.isDigit || c == '.' || c == '-'

private theorem isSizeChar_toLower_ne {c : Char} (h : isSizeChar c = true) : c.toLower ≠ 'n' := by
  refine Chars.toLower_ne_of_isDecimalChar ?_
  simp only [isSizeChar, Bool.or_eq_true, beq_iff_eq] at h
  rcases h with (h | rfl) | rfl
  · exact Chars.isDecimalChar_of_isDigit h
  · decide
  · decide

/-- Text of digits, points and dashes is never read as `nan`. -/
theorem readDouble?_ne_nan {s : String} (hs : ∀ c ∈ s.toList, isSizeChar c = true) {x : Binary}
    (h : readDouble? s = some x) : x ≠ .nan := by
  have hword : String.ofList ((Chars.cutSign s.toList).2.map Char.toLower) ≠ "nan" := by
    intro heq
    have hn : 'n' ∈ (Chars.cutSign s.toList).2.map Char.toLower := by
      rw [← String.toList_ofList (l := (Chars.cutSign s.toList).2.map Char.toLower), heq]
      simp
    obtain ⟨c, hc, hlower⟩ := List.mem_map.1 hn
    exact isSizeChar_toLower_ne (hs c (Chars.mem_of_mem_cutSign hc)) hlower
  simp only [readDouble?, Binary.read?, beq_iff_eq, hword, if_false] at h
  split at h
  · obtain rfl := Option.some.inj h
    simp
  · obtain ⟨d, -, rfl⟩ := Option.map_eq_some_iff.1 h
    exact Decimal.toBinary_ne_nan _ _

private theorem SizeKey.number_read_ne_nan (size : String) : (SizeKey.read size).number ≠ .nan := by
  unfold SizeKey.read splitMeasure
  dsimp only
  split
  · rename_i x hx
    refine readDouble?_ne_nan ?_ hx
    intro c hc
    rw [String.toList_ofList] at hc
    exact List.all_eq_true.1 List.all_takeWhile c hc
  · simp

namespace SizeKey

/-- A key whose number is no `nan`. -/
abbrev Numeric := { k : SizeKey // k.number ≠ .nan }

def orderNumeric (a b : Numeric) : Ordering := a.1.order b.1

instance : TransCmp orderNumeric :=
  transCmp_lex (transCmp_comap compare fun k : Numeric => k.1.unit)
    (transCmp_lex
      (transCmp_comap Binary.orderNumbers fun k : Numeric => ⟨k.1.number, k.2⟩)
      (transCmp_comap compare fun k : Numeric => k.1.text))

def readNumeric (size : String) : Numeric := ⟨read size, number_read_ne_nan size⟩

private theorem order_read (a b : String) :
    (read a).order (read b) = orderNumeric (readNumeric a) (readNumeric b) := by
  simp only [orderNumeric, readNumeric]

end SizeKey

instance : TransCmp orderSizes :=
  have : TransCmp fun a b => SizeKey.orderNumeric (SizeKey.readNumeric a) (SizeKey.readNumeric b) :=
    transCmp_comap SizeKey.orderNumeric SizeKey.readNumeric
  transCmp_option this rfl (fun _ => rfl) (fun _ => rfl) SizeKey.order_read

/-- The variants of a group are in a total preorder. -/
theorem SizeRanking.transCmp_order (r : SizeRanking) (t : Theme) : TransCmp (r.order t) :=
  transCmp_lex (transCmp_comap orderSizes fun a => (r.key t a).size)
    (transCmp_lex (transCmp_comap compare fun a => (r.key t a).root)
      (transCmp_comap compare fun a => (r.key t a).name))

end UtilityCss
