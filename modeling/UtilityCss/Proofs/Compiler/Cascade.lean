import UtilityCss.Proofs.Compiler.ClassNames
import UtilityCss.Proofs.Design.Rank
import UtilityCss.Proofs.Stylesheet.Property
import UtilityCss.Proofs.Variant.Breakpoint
import UtilityCss.Proofs.Variant.Registry

/-!
# Breakpoints in the output

The rules for class names are put in their order into the place of the mark. The output is flat, but
what becomes of one rule stays in front of what becomes of a later one. Class names with a breakpoint
alone are therefore in the order of the sizes, whatever their utilities are.
-/

namespace UtilityCss

open BreakpointSize

namespace Spot

/-- Whether a place is inside of rules and conditional at-rules alone. -/
def IsFlattened : Spot → Prop
  | here _ _ => True
  | inRule _ _ inner _ => inner.IsFlattened
  | inAtRule _ name _ inner _ => isConditional name ∧ inner.IsFlattened

/-- The selectors that a place in a forest inside of some rules is under. -/
def parents (outer : Option (List String)) : Spot → Option (List String)
  | here _ _ => outer
  | inRule _ selector inner _ => inner.parents (some (combineSelectors outer selector))
  | inAtRule _ _ _ inner _ => inner.parents outer

private theorem isFlattened_without (p : Node → Bool) {s : Spot} :
    (s.without p).IsFlattened ↔ s.IsFlattened := by
  induction s with
  | here => exact Iff.rfl
  | inRule before selector inner after ih => exact ih
  | inAtRule before name params inner after ih => exact and_congr_right fun _ => ih

private theorem parents_without (p : Node → Bool) (outer : Option (List String)) (s : Spot) :
    (s.without p).parents outer = s.parents outer := by
  induction s generalizing outer with
  | here => rfl
  | inRule before selector inner after ih => exact ih _
  | inAtRule before name params inner after ih => exact ih _

end Spot

/-- What nodes become inside of rules with the given selectors: flat nodes without definitions of
properties. -/
def flatInside (outer : Option (List String)) (ns : List Node) : List Node :=
  flattenEach outer (withoutProperties ns)

section Flat

variable {outer : Option (List String)} {ns ms : List Node}

private theorem flattenEach_append (ns ms : List Node) :
    flattenEach outer (ns ++ ms) = flattenEach outer ns ++ flattenEach outer ms := by
  induction ns with
  | nil => rfl
  | cons n ns ih => rw [List.cons_append, flattenEach, ih, flattenEach, List.append_assoc]

theorem flatInside_append (ns ms : List Node) :
    flatInside outer (ns ++ ms) = flatInside outer ns ++ flatInside outer ms := by
  rw [flatInside, withoutProperties_eq, removeEach_append, flattenEach_append]
  rfl

private theorem flatInside_rule (selector : String) (ns : List Node) :
    flatInside outer [.rule selector ns] =
      localRule (some (combineSelectors outer selector)) (withoutProperties ns) ++
        flatInside (some (combineSelectors outer selector)) ns := by
  rw [flatInside, withoutProperties_eq, removeEach_cons]
  exact List.append_nil _

private theorem flatInside_atRule {name : String} (hname : isConditional name) (params : String)
    (ns : List Node) : flatInside outer [.atRule name params ns] =
      [.atRule name params (localRule outer (withoutProperties ns) ++ flatInside outer ns)] := by
  have hproperty : (Node.atRule name params ns).definesProperty = false := by
    have hne : name ≠ "property" := by
      rintro rfl
      exact absurd hname (by decide)
    simp [Node.definesProperty, Node.property?, Node.isAt, Node.atName?, hne]
  rw [flatInside, withoutProperties_eq, removeEach_cons, hproperty]
  change flattenEach outer [.atRule name params (withoutProperties ns)] = _
  rw [flattenEach, flattenEach, Node.flatten, if_pos hname, List.append_nil]
  rfl

/-- What becomes of the nodes at a place stands together in what becomes of the forest. -/
theorem exists_flatInside_fill {s : Spot} (h : s.IsFlattened) (outer : Option (List String))
    (new : List Node) : ∃ place : Spot,
      flatInside outer (s.fill new) = place.fill (flatInside (s.parents outer) new) := by
  induction s generalizing outer with
  | here before after =>
    refine ⟨.here (flatInside outer before) (flatInside outer after), ?_⟩
    rw [Spot.fill, flatInside_append, flatInside_append]
    rfl
  | inRule before selector inner after ih =>
    obtain ⟨place, hplace⟩ := ih h (some (combineSelectors outer selector))
    refine ⟨place.between (flatInside outer before ++ localRule
      (some (combineSelectors outer selector)) (withoutProperties (inner.fill new)))
      (flatInside outer after), ?_⟩
    rw [Spot.fill, ← List.singleton_append, flatInside_append, flatInside_append, flatInside_rule,
      hplace, Spot.fill_between]
    simp [Spot.parents]
  | inAtRule before name params inner after ih =>
    obtain ⟨hname, hinner⟩ := h
    obtain ⟨place, hplace⟩ := ih hinner outer
    refine ⟨.inAtRule (flatInside outer before) name params
      (place.between (localRule outer (withoutProperties (inner.fill new))) [])
      (flatInside outer after), ?_⟩
    rw [Spot.fill, ← List.singleton_append, flatInside_append, flatInside_append,
      flatInside_atRule hname, hplace, Spot.fill, Spot.fill_between, List.append_nil]
    rfl

end Flat

section Placed

variable {isMarker : Node → Bool} {f : Node → List Node}
  (hrule : ∀ selector ns, ¬ isMarker (.rule selector ns))
  (hatRule : ∀ name params ns, ¬ isMarker (.atRule name params ns))
include hrule hatRule

theorem exists_placeEach_fill (met : Bool) (s : Spot) (new : List Node) :
    ∃ (place : Spot) (met' : Bool), (placeEach isMarker f met (s.fill new)).1 =
      place.fill (placeEach isMarker f met' new).1 := by
  induction s generalizing met with
  | here before after =>
    rw [Spot.fill, placeEach_append, placeEach_append]
    exact ⟨.here _ _, _, rfl⟩
  | inRule before selector inner after ih =>
    obtain ⟨place, met', hplace⟩ := ih (placeEach isMarker f met before).2
    rw [Spot.fill, placeEach_append, placeEach_cons, Node.placeAtFirst_eq, if_neg (hrule _ _)]
    dsimp only
    rw [Node.children, Node.withChildren, hplace]
    exact ⟨.inRule _ selector place _, met', rfl⟩
  | inAtRule before name params inner after ih =>
    obtain ⟨place, met', hplace⟩ := ih (placeEach isMarker f met before).2
    rw [Spot.fill, placeEach_append, placeEach_cons, Node.placeAtFirst_eq, if_neg (hatRule _ _ _)]
    dsimp only
    rw [Node.children, Node.withChildren, hplace]
    exact ⟨.inAtRule _ name params place _, met', rfl⟩

end Placed

theorem sublist_sortBy_of_lt {α : Type} {cmp : α → α → Ordering} [Std.TransCmp cmp] {as : List α}
    {a b : α} (ha : a ∈ sortBy cmp as) (hb : b ∈ sortBy cmp as) (h : cmp a b = .lt) :
    [a, b].Sublist (sortBy cmp as) := by
  have hsorted : (sortBy cmp as).Pairwise fun a b => (cmp a b).isLE = true := pairwise_sortBy as
  generalize sortBy cmp as = cs at ha hb hsorted
  induction cs with
  | nil => exact absurd ha List.not_mem_nil
  | cons c cs ih =>
    obtain ⟨hc, hcs⟩ := List.pairwise_cons.1 hsorted
    have hne : a ≠ b := by
      rintro rfl
      have hself : cmp a a = .eq := Std.ReflCmp.compare_self
      rw [hself] at h
      cases h
    rcases List.mem_cons.1 ha with rfl | hacs
    · have hbcs := (List.mem_cons.1 hb).resolve_left hne.symm
      exact List.Sublist.cons_cons a (List.singleton_sublist.2 hbcs)
    · rcases List.mem_cons.1 hb with rfl | hbcs
      · -- What is smaller cannot come behind.
        have hle : (cmp b a).isLE = true := hc a hacs
        have hswap : cmp b a = (cmp a b).swap := Std.OrientedCmp.eq_swap
        rw [hswap, h] at hle
        cases hle
      · exact (ih hacs hbcs hcs).cons c

namespace Compiler

variable (c : Compiler) (names : List String)

/-- What the rule for a class name becomes in the output, where the mark is under some selectors. `met`
says whether the mark of the theme comes before. -/
def written (outer : Option (List String)) (met : Bool) (a : CompiledCandidate) : List Node :=
  (placeEach Node.isThemeMark (fun _ => c.themeNodes (c.flatNodes names)) met
    (flatInside outer [a.rule])).1

/-- Whether the rule for a class name is in front of that for another one: among the rules that are
put in the place of the mark, and in the output. -/
def Precedes (a b : CompiledCandidate) : Prop :=
  [a, b].Sublist (c.compiled names) ∧
  ∀ (s : Spot) (m : Node), s.IsFirst Node.isUtilitiesMark c.nodes m → s.IsFlattened →
    ∃ (place : Spot) (front mid back : List Node) (met met' : Bool), c.output names =
      place.fill (front ++ c.written names (s.parents none) met a ++ mid ++
        c.written names (s.parents none) met' b ++ back)

variable {c names} {a b : CompiledCandidate}

/-- The nodes at a place of the flat stylesheet are at a place of the output, where the mark of the
theme is replaced. -/
theorem exists_output_fill {flat : Spot} {ns : List Node} (h : c.flatNodes names = flat.fill ns) :
    ∃ (place : Spot) (met : Bool), c.output names = place.fill
      (placeEach Node.isThemeMark (fun _ => c.themeNodes (c.flatNodes names)) met ns).1 := by
  have hrule (selector : String) (ns : List Node) : ¬ (Node.rule selector ns).isThemeMark :=
    Bool.false_ne_true
  have hatRule (name params : String) (ns : List Node) : ¬ (Node.atRule name params ns).isThemeMark :=
    Bool.false_ne_true
  obtain ⟨place, met, hplace⟩ := exists_placeEach_fill
    (f := fun _ => c.themeNodes (c.flatNodes names)) hrule hatRule false flat ns
  rw [← h] at hplace
  have hbetween (front back : List Node) : ∃ place' : Spot, ∀ new,
      front ++ place.fill new ++ back = place'.fill new :=
    ⟨place.between front back, fun new => (place.fill_between front back new).symm⟩
  rw [output_eq, withTheme]
  dsimp only
  rw [placeAtFirst, hplace]
  split
  · obtain ⟨place', hplace'⟩ := hbetween [] (propertyNodes _)
    exact ⟨place', met, hplace' _⟩
  · obtain ⟨place', hplace'⟩ := hbetween (c.themeNodes _) (propertyNodes _)
    exact ⟨place', met, hplace' _⟩

theorem precedes_of_sublist (h : [a, b].Sublist (c.compiled names)) : c.Precedes names a b := by
  refine ⟨h, fun s m hs hflat => ?_⟩
  obtain ⟨front, mid, back, hcompiled⟩ : ∃ front mid back,
      c.compiled names = front ++ ([a] ++ (mid ++ ([b] ++ back))) := by
    obtain ⟨before, behind, hsplit, ha, hb⟩ := List.cons_sublist_iff.1 h
    obtain ⟨front, mid, rfl⟩ := List.append_of_mem ha
    obtain ⟨mid', back, rfl⟩ := List.append_of_mem (List.singleton_sublist.1 hb)
    exact ⟨front, mid ++ mid', back, by simp [hsplit]⟩
  have hassembled : c.assembled names =
      (s.without Node.isUtilitiesMark).fill (c.utilityRules names) := placeAtFirst_of_isFirst _ hs
  obtain ⟨flat, hflatten⟩ := exists_flatInside_fill ((Spot.isFlattened_without _).2 hflat) none
    (c.utilityRules names)
  rw [← hassembled, Spot.parents_without] at hflatten
  obtain ⟨place, met, hplace⟩ := exists_output_fill hflatten
  rw [utilityRules, hcompiled, List.map_append, List.map_append, List.map_append, List.map_append,
    flatInside_append, flatInside_append, flatInside_append, flatInside_append, placeEach_append,
    placeEach_append, placeEach_append, placeEach_append] at hplace
  simp only [← List.append_assoc] at hplace
  exact ⟨place, _, _, _, _, _, hplace⟩

end Compiler

namespace Variants

/-- Whether a variant comes before another one, and with it all class names with the one alone before
those with the other alone. -/
def CascadesBefore (vs : Variants) (v w : Variant) : Prop :=
  vs.compare v w = .lt ∧
    ∀ (c : Compiler) (names : List String) (a b : CompiledCandidate), c.system.variants = vs →
      a ∈ c.compiled names → b ∈ c.compiled names →
      a.candidate.variants = [v] → b.candidate.variants = [w] → c.Precedes names a b

/-- Class names with one variant are in the order of these, whatever their utilities are. -/
theorem cascadesBefore_of_compare_lt {vs : Variants} {v w : Variant} (h : vs.compare v w = .lt) :
    vs.CascadesBefore v w := by
  refine ⟨h, ?_⟩
  rintro c names a b rfl ha hb hav hbw
  have hchain {cc : CompiledCandidate} {u : Variant} (hcc : cc ∈ c.compiled names)
      (hu : cc.candidate.variants = [u]) : cc.chain = [u] := by
    have hmem : cc ∈ c.unsorted names := (sortBy_perm _).subset hcc
    have hcompiles := c.system.compiles_of_compile? (c.mem_unsorted.1 hmem).2
    rw [c.system.chain_of_compiles hcompiles, hu]
    exact List.mergeSort_singleton u
  have hlt : c.system.compare a b = .lt := by
    rw [DesignSystem.compare, hchain ha hav, hchain hb hbw, compareChains, h]
    rfl
  exact Compiler.precedes_of_sublist (sublist_sortBy_of_lt ha hb hlt)

/-- Variants of the breakpoint group are in the order of their sizes if these are numbers of one unit
in digits, points and dashes. At one size, a breakpoint comes before `min`, and `min` before `max`. -/
theorem breakpoints_cascade (vs : Variants) (order : Nat)
    (hgroup : vs.rankings.lookup order = some breakpointRanking) (v w : Variant)
    (hv : vs.orderOf v = order) (hw : vs.orderOf w = order) (size size' : String)
    (hsize : breakpointSize? vs.theme v = some size)
    (hsize' : breakpointSize? vs.theme w = some size') :
    (∀ x y unit, IsMeasure size x unit → IsMeasure size' y unit → x.order y = .lt →
      vs.CascadesBefore v w) ∧
    (Text.trim size = Text.trim size' → v.breakpointForm < w.breakpointForm →
      vs.CascadesBefore v w) := by
  have hcompare (h : breakpointRanking.order vs.theme v w = .lt) : vs.CascadesBefore v w :=
    cascadesBefore_of_compare_lt (compare_of_order_lt hgroup hv hw
      (isSimple_of_breakpointSize? hsize) (isSimple_of_breakpointSize? hsize') h)
  constructor
  · intro x y unit hx hy hlt
    apply hcompare
    exact order_breakpointRanking_lt hsize hsize' (.inl (orderSizes_of_isMeasure hx hy hlt))
  · intro htrim hform
    apply hcompare
    exact order_breakpointRanking_lt hsize hsize' (.inr ⟨htrim, hform⟩)

def mediumTheme : Theme := Theme.ofEvents [.set "--breakpoint-md" "48rem" {}]

def signedTheme : Theme :=
  Theme.ofEvents [.set "--breakpoint-a" "+5px" {}, .set "--breakpoint-b" "10px" {}]

/-- `md` comes before a wider `min`, and before `max-md`. -/
theorem breakpoints_cascade_medium :
    let vs := builtin mediumTheme .media
    vs.CascadesBefore (.static "md") (.functional "min" (some (.arbitrary "64rem")) none) ∧
      vs.CascadesBefore (.static "md") (.functional "max" (some (.named "md")) none) := by
  intro vs
  have htheme : vs.theme = mediumTheme := theme_builtin _ _
  have hgroup : vs.rankings.lookup (vs.orderOf (.static "md")) = some breakpointRanking := by
    decide +kernel
  have hmin : vs.orderOf (.functional "min" (some (.arbitrary "64rem")) none) =
      vs.orderOf (.static "md") := by decide +kernel
  have hmax : vs.orderOf (.functional "max" (some (.named "md")) none) =
      vs.orderOf (.static "md") := by decide +kernel
  have hmd : mediumTheme.resolveValue (some "md") ["--breakpoint"] = some "48rem" := by
    decide +kernel
  have hsize : breakpointSize? vs.theme (.static "md") = some "48rem" := by rw [htheme]; exact hmd
  have hsize' : breakpointSize? vs.theme (.functional "max" (some (.named "md")) none) =
      some "48rem" := by rw [htheme]; exact hmd
  have hread : readDouble? "48" = some (.finite 48) := by decide +kernel
  have hread' : readDouble? "64" = some (.finite 64) := by decide +kernel
  have hmeasure : IsMeasure "48rem" (.finite 48) "rem" :=
    ⟨"48", by decide, by decide, hread, by decide⟩
  have hmeasure' : IsMeasure "64rem" (.finite 64) "rem" :=
    ⟨"64", by decide, by decide, hread', by decide⟩
  constructor
  · exact (breakpoints_cascade vs _ hgroup _ _ rfl hmin _ _ hsize rfl).1 _ _ _ hmeasure hmeasure'
      (by decide)
  · exact (breakpoints_cascade vs _ hgroup _ _ rfl hmax _ _ hsize hsize').2 rfl (by decide)

/-- The smaller breakpoint comes behind, since a plus sign is not taken for a part of the number. -/
theorem not_breakpoints_cascade :
    let vs := builtin signedTheme .media
    vs.rankings.lookup (vs.orderOf (.static "a")) = some breakpointRanking ∧
      vs.orderOf (.static "b") = vs.orderOf (.static "a") ∧
      breakpointSize? vs.theme (.static "a") = some ("+5" ++ "px") ∧
      breakpointSize? vs.theme (.static "b") = some ("10" ++ "px") ∧ "px" ∈ rankedUnits ∧
      (∃ x y, readDouble? "+5" = some x ∧ readDouble? "10" = some y ∧ x.order y = .lt) ∧
      vs.compare (.static "a") (.static "b") = .gt := by
  intro vs
  have htheme : vs.theme = signedTheme := theme_builtin _ _
  have ha : signedTheme.resolveValue (some "a") ["--breakpoint"] = some "+5px" := by decide +kernel
  have hb : signedTheme.resolveValue (some "b") ["--breakpoint"] = some "10px" := by decide +kernel
  have hfive : readDouble? "+5" = some (.finite 5) := by decide +kernel
  have hten : readDouble? "10" = some (.finite 10) := by decide +kernel
  refine ⟨by decide +kernel, by decide +kernel, ?_, ?_, by decide, ⟨_, _, hfive, hten, by decide⟩, ?_⟩
  · rw [htheme]
    exact ha
  · rw [htheme]
    exact hb
  · rw [compare_simple vs rfl rfl]
    decide +kernel

end Variants

end UtilityCss
