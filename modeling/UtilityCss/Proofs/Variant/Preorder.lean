import UtilityCss.Proofs.Text.Ascii
import UtilityCss.Proofs.Variant.Size
import UtilityCss.Variant.Builtin

/-!
# The order of variants is a total preorder

`Variants.compare` peels compounds off both of its arguments at different speeds. The laws hold by
induction on the depth of the variants: what is peeled off is always less deep, so that the laws
for less deep variants carry over to all triples of shapes.
-/

namespace UtilityCss

open Std (TransCmp OrientedCmp TransOrd OrientedOrd LawfulEqOrd)

namespace Variant

def isSimple : Variant → Bool
  | static _ => true
  | functional _ _ _ => true
  | _ => false

theorem shape (v : Variant) :
    (∃ s relative, v = .arbitrary s relative) ∨ (∃ r m x, v = .compound r m x) ∨
      v.isSimple = true := by
  cases v <;> simp [isSimple]

theorem isArbitrary_eq_false {v : Variant} (h : v.isSimple = true) : v.isArbitrary = false := by
  cases v <;> simp_all [isSimple, isArbitrary]

theorem depth_eq_zero {v : Variant} (h : v.isSimple = true) : v.depth = 0 := by
  cases v <;> simp_all [isSimple, depth]

end Variant

namespace Argument

theorem compare_named (s t : String) : compare (named s) (named t) = compare s t := by
  simp [compare, instOrdArgument.ord]

theorem compare_arbitrary (s t : String) : compare (arbitrary s) (arbitrary t) = compare s t := by
  simp [compare, instOrdArgument.ord]

instance : TransOrd Argument where
  eq_swap {a b} := by
    cases a with
    | named s =>
      cases b with
      | named t => rw [compare_named, compare_named]; exact OrientedOrd.eq_swap
      | arbitrary t => rfl
    | arbitrary s =>
      cases b with
      | named t => rfl
      | arbitrary t => rw [compare_arbitrary, compare_arbitrary]; exact OrientedOrd.eq_swap
  isLE_trans {a b c} hab hbc := by
    cases a <;> cases b <;> cases c
    all_goals first | rfl | contradiction | skip
    · rw [compare_named] at *; exact TransOrd.isLE_trans hab hbc
    · rw [compare_arbitrary] at *; exact TransOrd.isLE_trans hab hbc

end Argument

theorem isLE_then_gt (o : Ordering) : (o.then .gt).isLE = true ↔ o = .lt := by
  cases o <;> decide

theorem isLE_then_lt (o : Ordering) : (o.then .lt).isLE = true ↔ o.isLE = true := by
  cases o <;> decide

namespace Variants

variable (vs : Variants)

theorem compare_arbitrary (s t : String) (p q : Bool) :
    vs.compare (.arbitrary s p) (.arbitrary t q) = Ord.compare s t := by
  rw [compare]

theorem compare_arbitrary_left {b : Variant} (s : String) (p : Bool)
    (hb : b.isArbitrary = false) : vs.compare (.arbitrary s p) b = .gt := by
  cases b <;> simp_all [compare, Variant.isArbitrary]

theorem compare_arbitrary_right {a : Variant} (t : String) (q : Bool)
    (ha : a.isArbitrary = false) : vs.compare a (.arbitrary t q) = .lt := by
  cases a <;> simp_all [compare, Variant.isArbitrary]

theorem compare_compound (r q : String) (m n : Option Argument) (x y : Variant) :
    vs.compare (.compound r m x) (.compound q n y) =
      (vs.compare x y).then (vs.compareCompound (.compound r m x) (.compound q n y) m n) := by
  rw [compare]

theorem compare_compound_simple {b : Variant} (r : String) (m : Option Argument) (x : Variant)
    (hb : b.isSimple = true) : vs.compare (.compound r m x) b = (vs.compare x b).then .gt := by
  cases b <;> simp_all [compare, Variant.isSimple]

theorem compare_simple_compound {a : Variant} (q : String) (n : Option Argument) (y : Variant)
    (ha : a.isSimple = true) : vs.compare a (.compound q n y) = (vs.compare a y).then .lt := by
  cases a <;> simp_all [compare, Variant.isSimple]

theorem compare_simple {a b : Variant} (ha : a.isSimple = true) (hb : b.isSimple = true) :
    vs.compare a b = vs.compareSimple a b := by
  cases a <;> cases b <;> simp_all [compare, Variant.isSimple]

theorem transCmp_compareSimple : TransCmp vs.compareSimple := by
  refine transCmp_then vs.orderOf
    (fun order a b => (vs.orderInGroup order a b).then <|
      (Ord.compare a.rootName b.rootName).then <|
        (Ord.compare a.valueText? b.valueText?).then
          (Ord.compare a.modifierText? b.modifierText?)) fun order => ?_
  refine transCmp_lex ?_ <| transCmp_lex (transCmp_comap Ord.compare Variant.rootName) <|
    transCmp_lex (transCmp_comap Ord.compare Variant.valueText?)
      (transCmp_comap Ord.compare Variant.modifierText?)
  unfold orderInGroup
  cases vs.rankings.lookup order with
  | none => exact { eq_swap := rfl, isLE_trans := fun _ _ => rfl }
  | some r => exact r.transCmp_order vs.theme

/-- A variant of less than some depth, with what a compound around it is compared by. -/
abbrev Layer (n : Nat) := { x : Variant // x.depth < n } × Variant × Option Argument

/-- The order of variants of less than some depth. -/
def compareBelow (n : Nat) (a b : { x : Variant // x.depth < n }) : Ordering :=
  vs.compare a.1 b.1

def compareLayer (n : Nat) (a b : Layer n) : Ordering :=
  (vs.compareBelow n a.1 b.1).then (vs.compareCompound a.2.1 b.2.1 a.2.2 b.2.2)

theorem transCmp_compareLayer {n : Nat} (h : TransCmp (vs.compareBelow n)) :
    TransCmp (vs.compareLayer n) :=
  transCmp_lex (transCmp_comap (vs.compareBelow n) fun a : Layer n => a.1) <|
    transCmp_lex (transCmp_comap Ord.compare fun a : Layer n => vs.orderOf a.2.1) <|
      transCmp_lex (transCmp_comap Ord.compare fun a : Layer n => a.2.1.rootName)
        (transCmp_comap Ord.compare fun a : Layer n => a.2.2)

theorem exists_eq_arbitrary {s : String} {p : Bool} {b : Variant}
    (h : (vs.compare (.arbitrary s p) b).isLE = true) : ∃ t q, b = .arbitrary t q := by
  cases hb : b.isArbitrary with
  | false => rw [compare_arbitrary_left _ _ _ hb] at h; contradiction
  | true => cases b <;> simp_all [Variant.isArbitrary]

section Step

variable {vs} {n : Nat} (h : TransCmp (vs.compareBelow n))
include h

theorem compare_swap_succ {a b : Variant} (ha : a.depth < n + 1) (hb : b.depth < n + 1) :
    vs.compare a b = (vs.compare b a).swap := by
  have swap {x y : Variant} (hx : x.depth < n) (hy : y.depth < n) :
      vs.compare x y = (vs.compare y x).swap := h.eq_swap (a := ⟨x, hx⟩) (b := ⟨y, hy⟩)
  obtain ⟨s, p, rfl⟩ | ⟨r, m, x, rfl⟩ | sa := a.shape <;>
    obtain ⟨t, q, rfl⟩ | ⟨q, k, y, rfl⟩ | sb := b.shape
  · rw [compare_arbitrary, compare_arbitrary]
    exact OrientedOrd.eq_swap
  · rw [compare_arbitrary_left _ _ _ rfl, compare_arbitrary_right _ _ _ rfl]
    rfl
  · rw [compare_arbitrary_left _ _ _ (Variant.isArbitrary_eq_false sb),
      compare_arbitrary_right _ _ _ (Variant.isArbitrary_eq_false sb)]
    rfl
  · rw [compare_arbitrary_left _ _ _ rfl, compare_arbitrary_right _ _ _ rfl]
    rfl
  · have hx : x.depth < n := Nat.lt_of_succ_lt_succ ha
    have hy : y.depth < n := Nat.lt_of_succ_lt_succ hb
    rw [compare_compound, compare_compound]
    exact (vs.transCmp_compareLayer h).eq_swap
      (a := (⟨x, hx⟩, .compound r m x, m)) (b := (⟨y, hy⟩, .compound q k y, k))
  · have hx : x.depth < n := Nat.lt_of_succ_lt_succ ha
    have hb : b.depth < n := by rw [Variant.depth_eq_zero sb]; omega
    rw [compare_compound_simple _ _ _ _ sb, compare_simple_compound _ _ _ _ sb, swap hx hb,
      Ordering.swap_then]
    rfl
  · rw [compare_arbitrary_left _ _ _ (Variant.isArbitrary_eq_false sa),
      compare_arbitrary_right _ _ _ (Variant.isArbitrary_eq_false sa)]
    rfl
  · have hy : y.depth < n := Nat.lt_of_succ_lt_succ hb
    have ha : a.depth < n := by rw [Variant.depth_eq_zero sa]; omega
    rw [compare_compound_simple _ _ _ _ sa, compare_simple_compound _ _ _ _ sa, swap ha hy,
      Ordering.swap_then]
    rfl
  · rw [compare_simple _ sa sb, compare_simple _ sb sa]
    exact vs.transCmp_compareSimple.eq_swap

theorem isLE_trans_of_not_arbitrary {a b c : Variant} (ha : a.depth < n + 1)
    (hb : b.depth < n + 1) (hc : c.depth < n + 1) (na : ∀ s p, a ≠ .arbitrary s p)
    (nb : ∀ s p, b ≠ .arbitrary s p) (nc : ∀ s p, c ≠ .arbitrary s p)
    (hab : (vs.compare a b).isLE = true) (hbc : (vs.compare b c).isLE = true) :
    (vs.compare a c).isLE = true := by
  have le_le {x y z : Variant} (hx : x.depth < n) (hy : y.depth < n) (hz : z.depth < n) :
      (vs.compare x y).isLE = true → (vs.compare y z).isLE = true →
        (vs.compare x z).isLE = true := h.isLE_trans (a := ⟨x, hx⟩) (b := ⟨y, hy⟩) (c := ⟨z, hz⟩)
  have lt_le {x y z : Variant} (hx : x.depth < n) (hy : y.depth < n) (hz : z.depth < n) :
      vs.compare x y = .lt → (vs.compare y z).isLE = true → vs.compare x z = .lt :=
    h.lt_of_lt_of_isLE (a := ⟨x, hx⟩) (b := ⟨y, hy⟩) (c := ⟨z, hz⟩)
  have le_lt {x y z : Variant} (hx : x.depth < n) (hy : y.depth < n) (hz : z.depth < n) :
      (vs.compare x y).isLE = true → vs.compare y z = .lt → vs.compare x z = .lt :=
    h.lt_of_isLE_of_lt (a := ⟨x, hx⟩) (b := ⟨y, hy⟩) (c := ⟨z, hz⟩)
  have below {v : Variant} {r : String} {m : Option Argument}
      (hv : (Variant.compound r m v).depth < n + 1) : v.depth < n := Nat.lt_of_succ_lt_succ hv
  have simple {v x : Variant} (hx : x.depth < n) (sv : v.isSimple = true) : v.depth < n := by
    rw [Variant.depth_eq_zero sv]; omega
  obtain ⟨s, p, rfl⟩ | ⟨r, m, x, rfl⟩ | sa := a.shape
  · exact absurd rfl (na s p)
  · have hx := below ha
    obtain ⟨t, q, rfl⟩ | ⟨r', m', y, rfl⟩ | sb := b.shape
    · exact absurd rfl (nb t q)
    · have hy := below hb
      obtain ⟨u, q, rfl⟩ | ⟨r'', m'', z, rfl⟩ | sc := c.shape
      · exact absurd rfl (nc u q)
      · rw [compare_compound] at *
        exact (vs.transCmp_compareLayer h).isLE_trans (a := (⟨x, hx⟩, .compound r m x, m))
          (b := (⟨y, hy⟩, .compound r' m' y, m')) (c := (⟨z, below hc⟩, .compound r'' m'' z, m''))
          hab hbc
      · rw [compare_compound, Ordering.isLE_then_iff_and] at hab
        rw [compare_compound_simple _ _ _ _ sc, isLE_then_gt] at *
        exact le_lt hx hy (simple hx sc) hab.1 hbc
    · rw [compare_compound_simple _ _ _ _ sb, isLE_then_gt] at hab
      obtain ⟨u, q, rfl⟩ | ⟨r'', m'', z, rfl⟩ | sc := c.shape
      · exact absurd rfl (nc u q)
      · rw [compare_simple_compound _ _ _ _ sb, isLE_then_lt] at hbc
        rw [compare_compound, lt_le hx (simple hx sb) (below hc) hab hbc]
        rfl
      · rw [compare_compound_simple _ _ _ _ sc, isLE_then_gt]
        exact lt_le hx (simple hx sb) (simple hx sc) hab hbc
  · obtain ⟨t, q, rfl⟩ | ⟨r', m', y, rfl⟩ | sb := b.shape
    · exact absurd rfl (nb t q)
    · have hy := below hb
      rw [compare_simple_compound _ _ _ _ sa, isLE_then_lt] at hab
      obtain ⟨u, q, rfl⟩ | ⟨r'', m'', z, rfl⟩ | sc := c.shape
      · exact absurd rfl (nc u q)
      · rw [compare_compound, Ordering.isLE_then_iff_and] at hbc
        rw [compare_simple_compound _ _ _ _ sa, isLE_then_lt]
        exact le_le (simple hy sa) hy (below hc) hab hbc.1
      · rw [compare_compound_simple _ _ _ _ sc, isLE_then_gt] at hbc
        rw [le_lt (simple hy sa) hy (simple hy sc) hab hbc]
        rfl
    · obtain ⟨u, q, rfl⟩ | ⟨r'', m'', z, rfl⟩ | sc := c.shape
      · exact absurd rfl (nc u q)
      · have hz := below hc
        rw [compare_simple_compound _ _ _ _ sb, isLE_then_lt] at hbc
        rw [compare_simple_compound _ _ _ _ sa, isLE_then_lt]
        exact le_le (simple hz sa) (simple hz sb) hz hab hbc
      · rw [compare_simple _ sa sb] at hab
        rw [compare_simple _ sb sc] at hbc
        rw [compare_simple _ sa sc]
        exact vs.transCmp_compareSimple.isLE_trans hab hbc

private theorem isLE_trans_succ {a b c : Variant} (ha : a.depth < n + 1) (hb : b.depth < n + 1)
    (hc : c.depth < n + 1) (hab : (vs.compare a b).isLE = true)
    (hbc : (vs.compare b c).isLE = true) : (vs.compare a c).isLE = true := by
  by_cases ec : ∃ s p, c = .arbitrary s p
  · obtain ⟨u, q, rfl⟩ := ec
    cases na : a.isArbitrary with
    | false => rw [compare_arbitrary_right _ _ _ na]; rfl
    | true =>
      -- Everything behind an arbitrary variant is arbitrary.
      obtain ⟨s, p, rfl⟩ : ∃ s p, a = .arbitrary s p := by
        cases a <;> simp_all [Variant.isArbitrary]
      obtain ⟨t, p', rfl⟩ := vs.exists_eq_arbitrary hab
      rw [compare_arbitrary] at *
      exact TransOrd.isLE_trans hab hbc
  · have eb : ¬ ∃ s p, b = .arbitrary s p := by
      rintro ⟨t, p, rfl⟩
      exact ec (vs.exists_eq_arbitrary hbc)
    have ea : ¬ ∃ s p, a = .arbitrary s p := by
      rintro ⟨s, p, rfl⟩
      exact eb (vs.exists_eq_arbitrary hab)
    simp only [not_exists] at ea eb ec
    exact isLE_trans_of_not_arbitrary h ha hb hc ea eb ec hab hbc

end Step

theorem transCmp_compareBelow (n : Nat) : TransCmp (vs.compareBelow n) := by
  induction n with
  | zero =>
    exact { eq_swap := fun {a _} => absurd a.2 (Nat.not_lt_zero _)
            isLE_trans := fun {a _ _} _ _ => absurd a.2 (Nat.not_lt_zero _) }
  | succ n ih =>
    exact { eq_swap := fun {a b} => compare_swap_succ ih a.2 b.2
            isLE_trans := fun {a b c} => isLE_trans_succ ih a.2 b.2 c.2 }

/-- Variants of all shapes and depths are in one total preorder. -/
instance transCmp_compare : TransCmp vs.compare where
  eq_swap {a b} :=
    (vs.transCmp_compareBelow (a.depth + b.depth + 1)).eq_swap
      (a := ⟨a, by omega⟩) (b := ⟨b, by omega⟩)
  isLE_trans {a b c} :=
    (vs.transCmp_compareBelow (a.depth + b.depth + c.depth + 1)).isLE_trans
      (a := ⟨a, by omega⟩) (b := ⟨b, by omega⟩) (c := ⟨c, by omega⟩)

/-- In every registry, for whatever registrations have led to it, the comparison of variants is a
total preorder, and the numbers by which sizes are ranked are never `nan`. -/
theorem compare_totalPreorder (a b c : Variant) :
    vs.compare b a = (vs.compare a b).swap ∧ vs.compare a a = .eq ∧
      ((vs.compare a b).isLE = true → (vs.compare b c).isLE = true →
        (vs.compare a c).isLE = true) ∧
      (vs.compare a b = .eq → vs.compare b c = .eq → vs.compare a c = .eq) ∧
      (∀ s : String, (∀ k ∈ s.toList, isSizeChar k = true) → ∀ x, readDouble? s = some x →
        x ≠ .nan) :=
  ⟨vs.transCmp_compare.eq_swap, Std.ReflCmp.compare_self, vs.transCmp_compare.isLE_trans,
    TransCmp.eq_trans, fun _ hs _ hx => readDouble?_ne_nan hs hx⟩

/-- `hover`, then `group-hover`, then any arbitrary variant. -/
theorem compare_totalPreorder_hover :
    let vs := Variants.builtin {} .media
    (vs.compare (.static "hover") (.compound "group" none (.static "hover"))).isLE = true ∧
      (vs.compare (.compound "group" none (.static "hover")) (.arbitrary "& p" false)).isLE = true ∧
      (vs.compare (.static "hover") (.arbitrary "& p" false)).isLE = true ∧
      ∀ x, readDouble? "-4.5" = some x → x ≠ .nan := by
  intro vs
  have hab : (vs.compare (.static "hover") (.compound "group" none (.static "hover"))).isLE = true := by
    rw [compare_simple_compound _ _ _ _ rfl, isLE_then_lt]
    exact Std.ReflCmp.isLE_rfl
  have hbc : (vs.compare (.compound "group" none (.static "hover"))
      (.arbitrary "& p" false)).isLE = true := by
    rw [compare_arbitrary_right _ _ _ rfl]
    rfl
  obtain ⟨-, -, htrans, -, hnan⟩ := vs.compare_totalPreorder (.static "hover")
    (.compound "group" none (.static "hover")) (.arbitrary "& p" false)
  exact ⟨hab, hbc, htrans hab hbc, hnan "-4.5" (by decide)⟩

end Variants

end UtilityCss
