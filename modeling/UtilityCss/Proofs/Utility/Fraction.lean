import Mathlib.Data.List.TakeWhile
import UtilityCss.Proofs.Candidate.Faithful
import UtilityCss.Proofs.Stylesheet.Node
import UtilityCss.Proofs.Utility.Nodes
import UtilityCss.Proofs.Utility.Value
import UtilityCss.Proofs.Value.Fraction

/-!
# Fractions of utilities

A utility that takes fractions makes a part of the whole of one, or a proportion. What it makes has a
denominator that is zero exactly if the class name writes the zero in two digits or more.
-/

namespace UtilityCss

/-- What a recipe makes of a fraction, if it takes fractions. -/
def Recipe.quotient? (fraction : String) : Recipe → Option String
  | .valued rule _ => if rule.fractions then some ("calc(" ++ fraction ++ " * 100%)") else none
  | .aspectRatio => some fraction
  | _ => none

def Recipe.isNegatable : Recipe → Bool
  | .valued rule _ => rule.negatable
  | _ => false

/-- What the theme has for the value of a candidate. -/
def Recipe.themeText? (t : Theme) (c : Candidate) : Recipe → Option String
  | .valued rule _ => match c.value? with
    | some (.named _ (some fraction)) => t.resolve (some fraction) rule.themeKeys
    | some (.named value none) => t.resolve (some value) rule.themeKeys
    | some (.arbitrary _ _) => none
    | none => rule.themeKeys.head?.bind (t.resolve none [·])
  | .aspectRatio => match c.value? with
    | some (.named value none) => t.resolve (some value) ["--aspect"]
    | _ => none
  | _ => none

/-- Whether a text is written by the author of the class name, in brackets, or of the theme. -/
def Recipe.IsAuthored (t : Theme) (c : Candidate) (r : Recipe) (text : String) : Prop :=
  (∃ hint, c.value? = some (.arbitrary text hint)) ∨ r.themeText? t c = some text

def Sets (ns : List Node) (text : String) : Prop :=
  ∃ property important, Node.decl property text important ∈ allNodes ns

def withSign (negative : Bool) (text : String) : String := if negative then negate text else text

/-- Whether a recipe makes a quotient for a candidate whose denominator is zero. -/
def Recipe.DividesByZero (t : Theme) (c : Candidate) (r : Recipe) : Prop :=
  ∃ a b q ns, Chars.IsNumeral a.toList ∧ Chars.IsNumeral b.toList ∧
    Chars.decimalValue b.toList = 0 ∧ r.quotient? (a ++ "/" ++ b) = some q ∧
    r.nodes? t c = some ns ∧ Sets ns (withSign c.negative q) ∧ ¬ r.IsAuthored t c q

section Output

variable {property name params text value : String} {ns ms : List Node}

theorem not_sets_nil : ¬ Sets [] text := by
  rintro ⟨_, _, hmem⟩
  exact List.not_mem_nil hmem

theorem sets_append : Sets (ns ++ ms) text ↔ Sets ns text ∨ Sets ms text := by
  simp [Sets, allNodes_append, exists_or]

theorem sets_plain : Sets [.plain property value] text ↔ text = value := by
  simp [Sets, allNodes_cons, Node.plain, Node.children]

private theorem sets_atRule : Sets [.atRule name params ns] text ↔ Sets ns text := by
  simp [Sets, allNodes_cons, Node.children]

def Template.isSlashless : Template → Bool
  | .decl _ pieces => pieces == ["", ""] || pieces.length == 1 && pieces.all (!Text.containsChar · '/')
  | .rule _ _ => false
  | .property _ d => !Text.containsChar d.grammar '/' && d.initial.all (!Text.containsChar · '/')

def Template.isSetter : Template → Bool
  | .decl _ pieces => pieces == ["", ""]
  | _ => false

theorem fill_setter (value : String) : value.intercalate ["", ""] = value := by
  simp [String.intercalate_cons_cons]

private theorem Template.sets_fill {t : Template} (ht : t.isSlashless)
    (h : Sets [t.fill value] text) :
    text = value ∨ '/' ∉ text.toList := by
  cases t with
  | decl property pieces =>
    rw [fill, sets_plain] at h
    rw [isSlashless, Bool.or_eq_true, Bool.and_eq_true] at ht
    rcases ht with ht | ⟨hone, ht⟩
    · rw [eq_of_beq ht, fill_setter] at h
      exact .inl h
    · obtain ⟨piece, rfl⟩ := List.length_eq_one_iff.1 (eq_of_beq hone)
      rw [String.intercalate_singleton] at h
      subst h
      exact .inr (by simpa [Text.containsChar] using ht)
  | rule => exact absurd ht Bool.false_ne_true
  | property name d =>
    rw [isSlashless, Bool.and_eq_true] at ht
    rw [fill, PropertyDefinition.node, sets_atRule, sets_append, ← List.singleton_append, sets_append,
      sets_plain, sets_plain] at h
    rcases h with (rfl | rfl) | h
    · exact .inr (by simpa [Text.containsChar] using ht.1)
    · exact .inr (by cases d.inherits <;> decide)
    · cases hinitial : d.initial with
      | none =>
        rw [hinitial] at h
        exact absurd h not_sets_nil
      | some initial =>
        rw [hinitial] at h ht
        obtain rfl := sets_plain.1 h
        exact .inr (by simpa [Text.containsChar] using ht.2)

private theorem sets_fillTemplates {ts : List Template} (hts : ∀ t ∈ ts, t.isSlashless)
    (h : Sets (fillTemplates value ts) text) : text = value ∨ '/' ∉ text.toList := by
  induction ts with
  | nil => exact absurd h not_sets_nil
  | cons t ts ih =>
    rw [List.forall_mem_cons] at hts
    rw [fillTemplates, ← List.singleton_append, sets_append] at h
    exact h.elim (Template.sets_fill hts.1) (ih hts.2)

private theorem sets_value {ts : List Template} (h : ts.any (·.isSetter)) :
    Sets (fillTemplates value ts) value := by
  induction ts with
  | nil => exact absurd h Bool.false_ne_true
  | cons t ts ih =>
    rw [List.any_cons, Bool.or_eq_true] at h
    rw [fillTemplates, ← List.singleton_append, sets_append]
    rcases h with h | h
    · cases t with
      | decl property pieces =>
        rw [Template.fill, eq_of_beq h, fill_setter]
        exact .inl (sets_plain.2 rfl)
      | _ => exact absurd h Bool.false_ne_true
    · exact .inr (ih h)

end Output

/-- Whether the values of a rule have no slash but for the theme's, the fractions and those in
brackets. -/
structure ValueRule.IsSlashless (r : ValueRule) : Prop where
  keywords : ∀ p ∈ r.keywords, '/' ∉ p.2.toList
  defaultKey : r.defaultKey = none
  defaultValue : r.defaultValue = none
  bare : r.bare = .spacing ∨ r.bare = .integer

instance (r : ValueRule) : Decidable r.IsSlashless :=
  decidable_of_iff ((∀ p ∈ r.keywords, '/' ∉ p.2.toList) ∧ r.defaultKey = none ∧
      r.defaultValue = none ∧ (r.bare = .spacing ∨ r.bare = .integer))
    ⟨fun h => ⟨h.1, h.2.1, h.2.2.1, h.2.2.2⟩,
      fun h => ⟨h.keywords, h.defaultKey, h.defaultValue, h.bare⟩⟩

/-- Whether a recipe that takes fractions sets some property to the value, and writes no slash. -/
def Recipe.IsSlashless : Recipe → Prop
  | .valued rule output => rule.fractions →
    rule.IsSlashless ∧ (∀ t ∈ output, t.isSlashless) ∧ output.any (·.isSetter)
  | _ => True

instance : DecidablePred Recipe.IsSlashless
  | .valued rule output => inferInstanceAs (Decidable (rule.fractions = true → rule.IsSlashless ∧
      (∀ t ∈ output, t.isSlashless = true) ∧ output.any (·.isSetter) = true))
  | .fixed _ | .colored _ _ | .declared _ | .matched _ _ | .aspectRatio | .background | .gradient
  | .fontSize | .content => inferInstanceAs (Decidable True)

private theorem isSlashless_builtinUtilities : ∀ e ∈ builtinUtilities, e.2.IsSlashless := by
  decide +kernel

section Reading

variable {vs : Variants} {raw : String} {c : Candidate} {v fraction : String}

theorem notMem_of_isPlainName {d : Char} (h : isPlainName v)
    (hd : (d.isAlphanum || ['-', '_', '.', '%'].contains d) = false) : d ∉ v.toList := by
  rw [isPlainName, Bool.and_eq_true, Text.all, List.all_eq_true] at h
  exact fun hmem => absurd (h.2 d hmem) (Bool.eq_false_iff.1 hd)

/-- A built-in utility is read as a class name is written. -/
theorem isFaithful_of_mem_builtin (hc : c ∈ readCandidates Utilities.builtin vs raw) :
    c.IsFaithful Utilities.builtin raw :=
  isFaithful_of_mem_readCandidates (by decide +kernel) hc

private theorem isPlainName_of_mem_readCandidates (hc : c ∈ readCandidates Utilities.builtin vs raw)
    {fraction : Option String} (hv : c.value? = some (.named v fraction)) : isPlainName v := by
  obtain ⟨s, -, hform⟩ := (isFaithful_of_mem_builtin hc).form
  have hplain := hform.plain
  rw [Candidate.value?] at hv
  split at hv
  · next hc' =>
    rw [hc'] at hplain
    exact hplain.1 _ hv
  · cases hv

theorem exists_modifier (hc : c ∈ readCandidates Utilities.builtin vs raw)
    (hv : c.value? = some (.named v (some fraction))) :
    ∃ m, c.modifier? = some (.named m) ∧ fraction = v ++ "/" ++ m := by
  obtain ⟨s, -, hform⟩ := (isFaithful_of_mem_builtin hc).form
  have hfraction := hform.fraction
  rw [Candidate.value?] at hv
  split at hv
  · next hc' =>
    subst hv
    rw [hc'] at hfraction
    rw [Candidate.modifier?, hc']
    exact (hfraction fraction).1 rfl
  · cases hv

end Reading

section Quotient

variable {t : Theme} {c : Candidate} {a b q v m : String}

theorem eq_of_product {x y : String} (ha : ' ' ∉ a.toList) (hb : ' ' ∉ b.toList)
    (h : x ++ " * " ++ a = y ++ " * " ++ b) : a = b := by
  have hcut {x a : String} (ha : ' ' ∉ a.toList) :
      Chars.cutAt (· == ' ') (x ++ " * " ++ a).toList.reverse =
        some (a.toList.reverse, ("*".toList.reverse ++ " ".toList) ++ x.toList.reverse) := by
    rw [Chars.cutAt_char_eq_some_iff, List.mem_reverse]
    exact ⟨ha, by simp⟩
  have heq := hcut (x := x) ha
  rw [h, hcut hb] at heq
  have hreverse := (Prod.mk.inj (Option.some.inj heq)).1
  rw [List.reverse_inj, String.toList_inj] at hreverse
  exact hreverse.symm

private theorem eq_of_quotient (ha : Chars.IsNumeral a.toList) (hb : Chars.IsNumeral b.toList)
    (h : a ++ "/" ++ b = v ++ "/" ++ m) : a = v ∧ b = m := by
  have hchars : a.toList ++ '/' :: b.toList = v.toList ++ '/' :: m.toList := by
    simpa using congrArg String.toList h
  obtain ⟨ha, -, hb⟩ := (List.append_cons_inj_of_notMem (ha.notMem (by decide))
    (hb.notMem (by decide))).1 hchars
  exact ⟨String.toList_inj.1 ha, String.toList_inj.1 hb⟩

private theorem withSign_inj {negative : Bool} (h : withSign negative a = withSign negative b) :
    a = b := by
  cases negative with
  | false => exact h
  | true => exact (String.append_right_inj _).1 ((String.append_left_inj _).1 h)

private theorem mem_withSign {negative : Bool} {d : Char} (h : d ∈ q.toList) :
    d ∈ (withSign negative q).toList := by
  cases negative with
  | false => exact h
  | true => simp [withSign, negate, h]

theorem spacingOf?_ne (hv : isPlainName v) (h : spacingOf? t v = some q) {text : String} :
    q ≠ "calc(" ++ text ++ " * 100%)" := by
  rw [spacingOf?] at h
  obtain ⟨hmultiplier, h⟩ := Option.ite_none_right_eq_some.1 h
  obtain ⟨unit, -, rfl⟩ := Option.map_eq_some_iff.1 h
  intro heq
  have hsplit : "calc(" ++ text ++ " * 100%)" = "calc(" ++ text ++ " * " ++ "100%" ++ ")" := by
    rw [← String.toList_inj]
    simp
  rw [hsplit, String.append_left_inj] at heq
  obtain rfl := eq_of_product (notMem_of_isPlainName hv (by decide)) (by decide) heq
  exact absurd hmultiplier (by decide +kernel)

/-- The part of the whole that a rule finds for a candidate is the author's own text, or a fraction
for which the theme has nothing. -/
theorem ValueRule.magnitude?_cases {r : ValueRule} {output : List Template} (hr : r.IsSlashless)
    (hplain : ∀ v fraction, c.value? = some (.named v fraction) → isPlainName v)
    (hq : q = "calc(" ++ (a ++ "/" ++ b) ++ " * 100%)")
    (h : r.magnitude? t c.value? c.modifier? = some q) :
    (Recipe.valued r output).IsAuthored t c q ∨
      ∃ v, c.value? = some (.named v (some (a ++ "/" ++ b))) ∧ r.fractions ∧
        isFraction (a ++ "/" ++ b) ∧ (Recipe.valued r output).themeText? t c = none := by
  have hslash : '/' ∈ q.toList := by simp [hq]
  rw [magnitude?.eq_def] at h
  rw [Recipe.IsAuthored]
  split at h
  · next v fraction hv =>
    have htext : (Recipe.valued r output).themeText? t c = t.resolve (some fraction) r.themeKeys := by
      rw [Recipe.themeText?, hv]
    obtain ⟨htakes, h⟩ := Option.ite_none_right_eq_some.1 h
    rw [Bool.and_eq_true] at htakes
    cases htheme : t.resolve (some fraction) r.themeKeys with
    | some text =>
      rw [htheme] at h
      exact .inl (.inr (htext.trans (htheme.trans h)))
    | none =>
      rw [htheme, Option.getD_none, hq, Option.some_inj, String.append_left_inj,
        String.append_right_inj] at h
      subst h
      exact .inr ⟨v, hv, htakes.1, htakes.2, htext.trans htheme⟩
  · next v hv =>
    have htext : (Recipe.valued r output).themeText? t c = t.resolve (some v) r.themeKeys := by
      rw [Recipe.themeText?, hv]
    obtain ⟨-, h⟩ := Option.ite_none_left_eq_some.1 h
    simp only [named?, Option.orElse_eq_orElse, Option.orElse_eq_or, Option.or_eq_some_iff] at h
    rcases h with h | ⟨-, h | ⟨-, h⟩⟩
    · exact absurd hslash (hr.keywords _ (mem_of_lookup h))
    · exact .inl (.inr (htext.trans h))
    · rcases hr.bare with hbare | hbare
      · rw [hbare] at h
        exact absurd hq (spacingOf?_ne (hplain _ _ hv) h)
      · rw [hbare] at h
        obtain ⟨-, -, rfl⟩ := Option.map_eq_some_iff.1 h
        exact absurd hslash (notMem_of_isPlainName (hplain _ _ hv) (by decide))
  · next value hint hv =>
    obtain ⟨-, h⟩ := Option.ite_none_left_eq_some.1 h
    cases h
    exact .inl (.inl ⟨hint, hv⟩)
  · next hv =>
    have htext : (Recipe.valued r output).themeText? t c =
        r.themeKeys.head?.bind (t.resolve none [·]) := by
      rw [Recipe.themeText?, hv]
    obtain ⟨-, h⟩ := Option.ite_none_left_eq_some.1 h
    rw [default?, hr.defaultKey, hr.defaultValue] at h
    exact .inl (.inr (htext.trans h))

/-- A proportion is the author's own text, or a fraction, or one of the built-in ones, which are
written with blanks. -/
theorem aspectRatio?_cases (ha : Chars.IsNumeral a.toList) (hb : Chars.IsNumeral b.toList)
    {value : CandidateValue} (hvalue : c.value? = some value)
    (h : aspectRatio? t value = some (a ++ "/" ++ b)) :
    Recipe.aspectRatio.IsAuthored t c (a ++ "/" ++ b) ∨
      ∃ v, value = .named v (some (a ++ "/" ++ b)) ∧ isFraction (a ++ "/" ++ b) ∧
        Recipe.aspectRatio.themeText? t c = none := by
  have hblank : ' ' ∉ (a ++ "/" ++ b).toList := by
    simp [ha.notMem (c := ' ') (by decide), hb.notMem (c := ' ') (by decide)]
  have hslash : '/' ∈ (a ++ "/" ++ b).toList := by simp
  rw [Recipe.IsAuthored, Recipe.themeText?, hvalue]
  rw [aspectRatio?.eq_def] at h
  split at h
  · next value hint =>
    obtain ⟨-, h⟩ := Option.ite_none_right_eq_some.1 h
    cases h
    exact .inl (.inl ⟨hint, rfl⟩)
  · next v fraction =>
    obtain ⟨hfraction, h⟩ := Option.ite_none_right_eq_some.1 h
    cases h
    exact .inr ⟨v, rfl, hfraction, rfl⟩
  · rw [← Option.some.inj h] at hslash
    exact absurd hslash (by decide)
  · rw [← Option.some.inj h] at hblank
    exact absurd (by decide) hblank
  · simp only [Option.orElse_eq_orElse, Option.orElse_eq_or, Option.or_eq_some_iff] at h
    rcases h with h | ⟨-, h⟩
    · exact .inl (.inr h)
    · obtain ⟨-, h⟩ := Option.ite_none_right_eq_some.1 h
      rw [← Option.some.inj h] at hblank
      exact absurd (by decide) hblank

theorem ValueRule.resolve?_eq_some_iff {r : ValueRule} {value : String} :
    r.resolve? t c = some value ↔ (c.negative → r.negatable) ∧
      ∃ q, r.magnitude? t c.value? c.modifier? = some q ∧ withSign c.negative q = value := by
  rw [resolve?]
  cases c.negative with
  | false => simp [withSign]
  | true => cases r.negatable <;> simp [withSign]

variable {r : Recipe} {ns : List Node}

/-- A quotient in the output that is not the author's own is made of a fraction. -/
theorem Recipe.IsSlashless.exists_fraction (hr : r.IsSlashless)
    (hplain : ∀ v fraction, c.value? = some (.named v fraction) → isPlainName v)
    (ha : Chars.IsNumeral a.toList) (hb : Chars.IsNumeral b.toList)
    (hq : r.quotient? (a ++ "/" ++ b) = some q) (hns : r.nodes? t c = some ns)
    (hsets : Sets ns (withSign c.negative q)) (hauthor : ¬ r.IsAuthored t c q) :
    ∃ v, c.value? = some (.named v (some (a ++ "/" ++ b))) ∧ isFraction (a ++ "/" ++ b) ∧
      (c.negative → r.isNegatable) ∧ r.themeText? t c = none := by
  cases gives_of_nodes? hns with
  | valued hvalue =>
    obtain ⟨htakes, hq⟩ := Option.ite_none_right_eq_some.1 hq
    have hq := (Option.some.inj hq).symm
    obtain ⟨hrule, houtput, -⟩ := hr htakes
    obtain ⟨hsign, q', hmagnitude, rfl⟩ := ValueRule.resolve?_eq_some_iff.1 hvalue
    have hslash : '/' ∈ (withSign c.negative q).toList := mem_withSign (by simp [hq])
    obtain rfl := withSign_inj ((sets_fillTemplates houtput hsets).resolve_right (not_not.2 hslash))
    obtain ⟨v, hv, -, hfraction, htheme⟩ :=
      (ValueRule.magnitude?_cases hrule hplain hq hmagnitude).resolve_left hauthor
    exact ⟨v, hv, hfraction, hsign, htheme⟩
  | aspectRatio hvalue hratio hpositive =>
    cases hq
    rw [sets_plain, hpositive] at hsets
    subst hsets
    obtain ⟨v, rfl, hfraction, htheme⟩ :=
      (aspectRatio?_cases ha hb hvalue hratio).resolve_left hauthor
    exact ⟨v, hvalue, hfraction, fun h => absurd h (Bool.eq_false_iff.1 hpositive), htheme⟩
  | _ => cases hq

/-- Of a fraction for which the theme has nothing, a quotient is made. -/
theorem Recipe.IsSlashless.sets_quotient (hr : r.IsSlashless) {fraction : String}
    (hv : c.value? = some (.named v (some fraction))) (hfraction : isFraction fraction)
    (hsign : c.negative → r.isNegatable) (htheme : r.themeText? t c = none)
    (hq : r.quotient? fraction = some q) :
    ∃ ns, r.nodes? t c = some ns ∧ Sets ns (withSign c.negative q) := by
  cases r with
  | valued rule output =>
    obtain ⟨htakes, hq⟩ := Option.ite_none_right_eq_some.1 hq
    obtain ⟨-, -, hsetter⟩ := hr htakes
    have hmagnitude : rule.magnitude? t c.value? c.modifier? = some q := by
      rw [themeText?, hv] at htheme
      change t.resolve (some fraction) rule.themeKeys = none at htheme
      rw [hv, ValueRule.magnitude?, ValueRule.fraction?, htakes, hfraction, htheme]
      exact hq
    have hvalue := ValueRule.resolve?_eq_some_iff.2 ⟨hsign, q, hmagnitude, rfl⟩
    exact ⟨_, Option.map_eq_some_iff.2 ⟨_, hvalue, rfl⟩, sets_value hsetter⟩
  | aspectRatio =>
    cases hq
    have hpositive : c.negative = false :=
      Bool.eq_false_iff.2 fun h => absurd (hsign h) Bool.false_ne_true
    refine ⟨[.plain "aspect-ratio" q], ?_, ?_⟩
    · rw [nodes?, hv, hpositive]
      simp [aspectRatio?, hfraction]
    · rw [hpositive, sets_plain]
      rfl
  | _ => cases hq

end Quotient

/-- A built-in utility divides by zero exactly for a fraction of a whole number and a zero in two
digits or more, if it takes fractions, and a sign where there is one, and the theme has nothing for
the fraction. A text is a fraction if it is two whole numbers around a slash, of which the second is
not zero or is such a zero. -/
theorem dividesByZero_iff {t : Theme} {vs : Variants} {raw : String} {c : Candidate}
    {e : String × Recipe} (hc : c ∈ readCandidates Utilities.builtin vs raw)
    (he : e ∈ builtinUtilities) :
    (e.2.DividesByZero t c ↔ ∃ v m, c.value? = some (.named v (some (v ++ "/" ++ m))) ∧
      c.modifier? = some (.named m) ∧ IsWholeNumber v ∧ IsWholeNumber m ∧ IsLongZero m ∧
      (e.2.quotient? (v ++ "/" ++ m)).isSome ∧ (c.negative → e.2.isNegatable) ∧
      e.2.themeText? t c = none) ∧
    ∀ s, isFraction s ↔ ∃ a b, s = a ++ "/" ++ b ∧ IsWholeNumber a ∧ IsWholeNumber b ∧
      (Chars.decimalValue b.toList ≠ 0 ∨ IsLongZero b) := by
  have hr := isSlashless_builtinUtilities e he
  refine ⟨⟨?_, ?_⟩, fun _ => isFraction_iff⟩
  · rintro ⟨a, b, q, ns, ha, hb, hzero, hq, hns, hsets, hauthor⟩
    obtain ⟨v, hv, hfraction, hsign, htheme⟩ := hr.exists_fraction
      (fun _ _ => isPlainName_of_mem_readCandidates hc) ha hb hq hns hsets hauthor
    obtain ⟨m, hm, hjoin⟩ := exists_modifier hc hv
    obtain ⟨rfl, rfl⟩ := eq_of_quotient ha hb hjoin
    obtain ⟨hwholea, hwholeb, hne⟩ := (isFraction_append_iff (ha.notMem (by decide))).1 hfraction
    have hlong := ((ne_zero_iff hb).1 hne).resolve_left (not_not.2 hzero)
    exact ⟨a, b, hv, hm, hwholea, hwholeb, hlong, by rw [hq]; rfl, hsign, htheme⟩
  · rintro ⟨v, m, hv, hm, hwholev, hwholem, hlong, htakes, hsign, htheme⟩
    obtain ⟨q, hq⟩ := Option.isSome_iff_exists.1 htakes
    have hfraction : isFraction (v ++ "/" ++ m) :=
      isFraction_iff.2 ⟨v, m, rfl, hwholev, hwholem, .inr hlong⟩
    obtain ⟨ns, hns, hsets⟩ := hr.sets_quotient hv hfraction hsign htheme hq
    refine ⟨v, m, q, ns, hwholev.1, hwholem.1, ?_, hq, hns, hsets, ?_⟩
    · exact (Chars.decimalValue_eq_zero_iff hwholem.1.2).2 hlong.2
    · rintro (⟨hint, harbitrary⟩ | htext)
      · rw [hv] at harbitrary
        cases harbitrary
      · rw [htheme] at htext
        cases htext

theorem width_mem_builtinUtilities :
    ("w", .valued (sizeRule ["--width", "--spacing", "--container"] widthKeywords)
      (setAll ["width"])) ∈ builtinUtilities := by
  unfold builtinUtilities
  simp only [List.append_assoc]
  refine List.mem_append_right _ (List.mem_append_right _ (List.mem_append_left _ ?_))
  refine List.mem_append_right _ ?_
  simp [sizeUtilities, setters]

/-- A half of the width does not divide by zero. -/
theorem dividesByZero_iff_half :
    ∃ c ∈ readCandidates Utilities.builtin (Variants.builtin {} .media) "w-1/2",
    ∃ e ∈ builtinUtilities, e.2.nodes? {} c = some [.plain "width" "calc(1/2 * 100%)"] ∧
      ¬ e.2.DividesByZero {} c := by
  have hc : ⟨.functional "w" (some (.named "1" (some "1/2"))) (some (.named "2")) false, [], false,
      "w-1/2"⟩ ∈ readCandidates Utilities.builtin (Variants.builtin {} .media) "w-1/2" := by
    decide +kernel
  refine ⟨_, hc, _, width_mem_builtinUtilities, by rfl, fun hzero => ?_⟩
  obtain ⟨v, m, -, hm, -, -, hlong, -⟩ :=
    (dividesByZero_iff hc width_mem_builtinUtilities).1.1 hzero
  cases hm
  exact absurd hlong (by decide)

/-- A denominator `00` is zero. -/
theorem dividesByZero_double_zero :
    isFraction "1/00" ∧ Chars.IsNumeral "00".toList ∧ Chars.decimalValue "00".toList = 0 ∧
    ∃ c ∈ readCandidates Utilities.builtin (Variants.builtin {} .media) "w-1/00",
    ∃ e ∈ builtinUtilities, e.2.nodes? {} c = some [.plain "width" "calc(1/00 * 100%)"] ∧
      e.2.DividesByZero {} c := by
  have hc : ⟨.functional "w" (some (.named "1" (some "1/00"))) (some (.named "00")) false, [], false,
      "w-1/00"⟩ ∈ readCandidates Utilities.builtin (Variants.builtin {} .media) "w-1/00" := by
    decide +kernel
  refine ⟨by decide, by decide, by decide, _, hc, _, width_mem_builtinUtilities, by rfl, ?_⟩
  refine ⟨"1", "00", "calc(1/00 * 100%)", _, by decide, by decide, by decide, by rfl, by rfl,
    sets_plain.2 rfl, ?_⟩
  rintro (⟨hint, harbitrary⟩ | htext)
  · cases harbitrary
  · exact absurd htext (by decide)

end UtilityCss
