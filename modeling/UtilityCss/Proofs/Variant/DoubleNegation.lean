import UtilityCss.Proofs.Text.Find
import UtilityCss.Proofs.Variant.Negation

/-!
# Negation of a negation

The negation of a condition takes away a `not` in front of it, but writes its own `not` behind the name
of a container. So the negation of a negation is the condition again exactly if there was no second
`not` in front and nothing could be taken for the name of a container.
-/

namespace UtilityCss

namespace NegatedCondition

section Condition

variable {name params rest container query : String}

/-- A condition without the `not` in front of it. -/
def bareCondition (params : String) : String := (Text.afterLead? "not " params).getD params

/-- Whether the `not` of a negated condition stands in front, not behind the name of a container. -/
def IsUnnamed (name params : String) : Prop :=
  name = "container" → Text.startsWith params "(" ∨ ' ' ∉ params.toList

instance (name params : String) : Decidable (IsUnnamed name params) :=
  inferInstanceAs (Decidable (_ → _ ∨ _))

theorem cutAt_named (hblank : ' ' ∉ container.toList) :
    Text.cutAt (· == ' ') (container ++ " " ++ query) = some (container, query) := by
  rw [Text.cutAt_char_eq_some_iff]
  exact ⟨hblank, by simp⟩

private theorem cutAt_not (rest : String) :
    Text.cutAt (· == ' ') ("not " ++ rest) = some ("not", rest) := by
  rw [Text.cutAt_char_eq_some_iff]
  exact ⟨by decide, by simp⟩

/-- A text with a `not` in front is no condition behind another name. -/
theorem named_ne_not (hblank : ' ' ∉ container.toList) (hnot : container ≠ "not") :
    container ++ " " ++ query ≠ "not " ++ rest := by
  intro h
  have hcut : Text.cutAt (· == ' ') (container ++ " " ++ query) = some (container, query) :=
    cutAt_named hblank
  rw [h, cutAt_not] at hcut
  exact hnot (Prod.mk.inj (Option.some.inj hcut)).1.symm

theorem startsWith_bracket (h : Text.startsWith (container ++ " " ++ query) "(") :
    Text.startsWith container "(" := by
  rw [Text.startsWith, List.isPrefixOf_iff_prefix] at h ⊢
  rw [String.toList_append, String.toList_append, List.append_assoc] at h
  change ['('] <+: container.toList ++ (' ' :: query.toList) at h
  change ['('] <+: container.toList
  cases hchars : container.toList with
  | nil =>
    rw [hchars, List.nil_append, List.cons_prefix_cons] at h
    exact absurd h.1 (by decide)
  | cons c chars =>
    rw [hchars, List.cons_append, List.cons_prefix_cons] at h
    exact List.cons_prefix_cons.2 ⟨h.1, List.nil_prefix⟩

theorem not_isUnnamed_named (hbracket : ¬ Text.startsWith container "(") :
    ¬ IsUnnamed "container" (container ++ " " ++ query) := by
  intro h
  rcases h rfl with hopen | hblank
  · exact hbracket (startsWith_bracket hopen)
  · exact hblank (by simp)

/-- A condition has a `not` in front, or begins with the name of a container, or neither. -/
theorem condition_cases (name params : String) :
    (∃ rest, params = "not " ++ rest) ∨
    (¬ Text.startsWith params "not " ∧ IsUnnamed name params) ∨
    ∃ container query, name = "container" ∧ params = container ++ " " ++ query ∧
      ' ' ∉ container.toList ∧ container ≠ "not" ∧ ¬ Text.startsWith container "(" := by
  by_cases hnot : Text.startsWith params "not "
  · exact .inl (Text.startsWith_iff.1 hnot)
  by_cases hunnamed : IsUnnamed name params
  · exact .inr (.inl ⟨hnot, hunnamed⟩)
  obtain ⟨hname, hparams⟩ := Classical.not_imp.1 hunnamed
  obtain ⟨hbracket, hmem⟩ := not_or.1 hparams
  cases hcut : Text.cutAt (· == ' ') params with
  | none => exact absurd (Text.cutAt_char_eq_none_iff.1 hcut) hmem
  | some p =>
    obtain ⟨hblank, htext⟩ := Text.cutAt_char_eq_some_iff.1 hcut
    have hparams : params = p.1 ++ " " ++ p.2 := by
      rw [← String.toList_inj, htext]
      simp
    refine .inr (.inr ⟨p.1, p.2, hname, hparams, hblank, fun hcontainer => ?_, fun hopen => ?_⟩)
    · rw [hparams, hcontainer] at hnot
      exact hnot (Text.startsWith_iff.2 ⟨p.2, rfl⟩)
    · obtain ⟨rest, hrest⟩ := Text.startsWith_iff.1 hopen
      rw [hparams, hrest, String.append_assoc, String.append_assoc] at hbracket
      exact hbracket (Text.startsWith_iff.2 ⟨_, rfl⟩)

theorem negateCondition_not (name rest : String) : negateCondition name ("not " ++ rest) = rest := by
  rw [negateCondition, Text.afterLead?_eq_some_iff.2 rfl]

theorem negateCondition_of_isUnnamed (hnot : ¬ Text.startsWith params "not ")
    (h : IsUnnamed name params) : negateCondition name params = "not " ++ params := by
  rw [negateCondition]
  split
  · next rest hrest =>
    exact absurd (Text.startsWith_iff.2 ⟨rest, Text.afterLead?_eq_some_iff.1 hrest⟩) hnot
  · dsimp only
    split
    · next hnamed =>
      rw [Bool.and_eq_true, Bool.not_eq_true', beq_iff_eq] at hnamed
      rw [Text.cutAt_char_eq_none_iff.2]
      exact (h hnamed.1).resolve_left (Bool.eq_false_iff.1 hnamed.2)
    · rfl

theorem negateCondition_named (hblank : ' ' ∉ container.toList) (hnot : container ≠ "not")
    (hbracket : ¬ Text.startsWith container "(") :
    negateCondition "container" (container ++ " " ++ query) =
      container ++ " " ++ ("not " ++ query) := by
  rw [negateCondition]
  split
  · next rest hrest => exact absurd (Text.afterLead?_eq_some_iff.1 hrest) (named_ne_not hblank hnot)
  · have hopen : Text.startsWith (container ++ " " ++ query) "(" = false :=
      Bool.eq_false_iff.2 (mt startsWith_bracket hbracket)
    have hspace : " not " = " " ++ "not " := rfl
    rw [hopen, cutAt_named hblank]
    change container ++ " not " ++ query = _
    rw [hspace, String.append_assoc, String.append_assoc, String.append_assoc]

theorem append_not_not_ne {before : String} : before ++ ("not " ++ ("not " ++ rest)) ≠ before ++ rest := by
  intro h
  have hlength := congrArg String.length h
  simp only [String.length_append] at hlength
  have hfour : "not ".length = 4 := by decide
  omega

/-- The negation of a condition is the condition behind a `not` exactly if it has neither a `not` nor
the name of a container in front. -/
theorem negateCondition_eq_not_iff :
    negateCondition name params = "not " ++ params ↔
      ¬ Text.startsWith params "not " ∧ IsUnnamed name params := by
  rcases condition_cases name params with ⟨rest, rfl⟩ | hunnamed |
    ⟨container, query, rfl, rfl, hblank, hnot, hbracket⟩
  · rw [negateCondition_not]
    refine iff_of_false (fun h => ?_) fun h => h.1 (Text.startsWith_iff.2 ⟨rest, rfl⟩)
    have hsame : "" ++ rest = "" ++ ("not " ++ ("not " ++ rest)) := congrArg ("" ++ ·) h
    exact append_not_not_ne hsame.symm
  · exact iff_of_true (negateCondition_of_isUnnamed hunnamed.1 hunnamed.2) hunnamed
  · rw [negateCondition_named hblank hnot hbracket]
    exact iff_of_false (named_ne_not hblank hnot) fun h => not_isUnnamed_named hbracket h.2

/-- The negation of the negation of a condition is the condition again exactly if, without a `not` in
front, it begins neither with another `not` nor with what could name a container. -/
theorem negateCondition_negateCondition_iff :
    negateCondition name (negateCondition name params) = params ↔
      ¬ Text.startsWith (bareCondition params) "not " ∧ IsUnnamed name (bareCondition params) := by
  have hbare (h : ¬ Text.startsWith params "not ") : bareCondition params = params := by
    rw [bareCondition]
    cases hrest : Text.afterLead? "not " params with
    | none => rfl
    | some rest =>
      exact absurd (Text.startsWith_iff.2 ⟨rest, Text.afterLead?_eq_some_iff.1 hrest⟩) h
  rcases condition_cases name params with ⟨rest, rfl⟩ | ⟨hnot, hunnamed⟩ |
    ⟨container, query, rfl, rfl, hblank, hnot, hbracket⟩
  · rw [negateCondition_not, bareCondition, Text.afterLead?_eq_some_iff.2 rfl, Option.getD_some]
    exact negateCondition_eq_not_iff
  · rw [negateCondition_of_isUnnamed hnot hunnamed, negateCondition_not, hbare hnot]
    exact iff_of_true rfl ⟨hnot, hunnamed⟩
  · have hfront : ¬ Text.startsWith (container ++ " " ++ query) "not " := fun h =>
      have ⟨_, hrest⟩ := Text.startsWith_iff.1 h
      named_ne_not hblank hnot hrest
    rw [negateCondition_named hblank hnot hbracket, negateCondition_named hblank hnot hbracket,
      hbare hfront]
    exact iff_of_false append_not_not_ne fun h => not_isUnnamed_named hbracket h.2

end Condition

end NegatedCondition

open NegatedCondition

theorem VariantRule.meets_of_change {rule : VariantRule} {modifier : Option Argument} {n m : Node}
    (h : rule.change modifier n = some m) : rule.accepts.meets ⟨true, true⟩ := by
  cases rule with
  | negation | marker | has | within => rfl
  | _ => cases h

namespace Variants

variable {vs : Variants} {t : Theme} {dark : DarkMode} {v : Variant} {modifier : Option Argument}
  {name params : String} {ns ms : List Node}

/-- Around a compound a variant wraps nodes as it does alone, unless it is relative. -/
theorem wrapWithin_of_wrap {parent : Option String} (h : vs.wrap v ns = some ms) :
    vs.wrapWithin parent v ns = some ms := by
  cases v with
  | arbitrary selector relative =>
    rw [wrap, wrapWithin] at h
    obtain ⟨hrelative, h⟩ := Option.ite_none_left_eq_some.1 h
    cases relative with
    | true => exact absurd rfl hrelative
    | false => rw [wrapWithin]; exact h
  | _ => exact h

/-- What `not` makes of a variant that wraps nothing in one at-rule, if it applies. -/
theorem wrapWithin_not (hvs : (builtin t dark).Extends vs) {parent : Option String}
    (hv : vs.wrapWithin (some "not") v [] = some [.atRule name params []])
    (h : vs.wrapWithin parent (.compound "not" modifier v) ns = some ms) :
    ms = [.atRule name (negateCondition name params) ns] := by
  rw [wrapWithin_compound] at h
  obtain ⟨frame, hframe, rfl⟩ := Option.map_eq_some_iff.1 h
  obtain ⟨e, he, hframe⟩ := Option.bind_eq_some_iff.1 hframe
  obtain ⟨wrapped, hwrapped, hframe⟩ := Option.bind_eq_some_iff.1 hframe
  obtain rfl := Option.some.inj (hv.symm.trans hwrapped)
  obtain ⟨-, hframe⟩ := Option.ite_none_left_eq_some.1 hframe
  obtain ⟨n, hchange, hrest⟩ := Option.bind_eq_some_iff.1 ((List.mapM_cons ..).symm.trans hframe)
  cases hrest
  rw [hvs.rule_not he (VariantRule.meets_of_change hchange)] at hchange
  cases modifier with
  | some => cases hchange
  | none =>
    obtain ⟨-, hchange⟩ := Option.ite_none_right_eq_some.1 hchange
    cases hchange
    rfl

theorem exists_wrapWithin_inner {parent : Option String} {root : String}
    (h : vs.wrapWithin parent (.compound root modifier v) ns = some ms) :
    ∃ wrapped, vs.wrapWithin (some root) v [] = some wrapped := by
  rw [wrapWithin_compound] at h
  obtain ⟨frame, hframe, -⟩ := Option.map_eq_some_iff.1 h
  obtain ⟨e, -, hframe⟩ := Option.bind_eq_some_iff.1 hframe
  obtain ⟨wrapped, hwrapped, -⟩ := Option.bind_eq_some_iff.1 hframe
  exact ⟨wrapped, hwrapped⟩

/-- Two negations of a variant that wraps nodes in one at-rule wrap them in one of the same name, if
they apply. Its condition is the same exactly if, without a `not` in front, that of the variant begins
neither with another `not` nor with what could name a container. -/
theorem wrap_not_not_iff {outer inner : Option Argument} (hvs : (builtin t dark).Extends vs)
    (hv : ∀ ns, vs.wrap v ns = some [.atRule name params ns])
    (h : vs.wrap (.compound "not" outer (.compound "not" inner v)) ns = some ms) :
    ∃ params', ms = [.atRule name params' ns] ∧ (params' = params ↔
      ¬ Text.startsWith (bareCondition params) "not " ∧ IsUnnamed name (bareCondition params)) := by
  obtain ⟨wrapped, hwrapped⟩ := exists_wrapWithin_inner h
  have hinner := wrapWithin_not hvs (wrapWithin_of_wrap (hv [])) hwrapped
  subst hinner
  exact ⟨_, wrapWithin_not hvs hwrapped h, negateCondition_negateCondition_iff⟩

/-- A query about a container without a name is the same when it is negated twice. -/
theorem wrap_not_not_iff_container : ∃ (vs : Variants) (v : Variant) (ms : List Node),
    (builtin {} .media).Extends vs ∧
    vs.read? "not-not-[@container_(width>1px)]" =
      some (.compound "not" none (.compound "not" none v)) ∧
    (∀ ns, vs.wrap v ns = some [.atRule "container" "(width>1px)" ns]) ∧
    vs.wrap (.compound "not" none (.compound "not" none v)) [] = some ms ∧
    ms = [.atRule "container" "(width>1px)" []] := by
  let vs := builtin {} .media
  let v : Variant := .arbitrary "@container (width>1px)" false
  obtain ⟨hread, hsome⟩ :
      vs.read? "not-not-[@container_(width>1px)]" =
        some (.compound "not" none (.compound "not" none v)) ∧
      (vs.wrap (.compound "not" none (.compound "not" none v)) []).isSome := by
    decide +kernel
  obtain ⟨ms, hms⟩ := Option.isSome_iff_exists.1 hsome
  have hv (ns : List Node) : vs.wrap v ns = some [.atRule "container" "(width>1px)" ns] := rfl
  obtain ⟨params, rfl, hiff⟩ := wrap_not_not_iff .refl hv hms
  obtain rfl := hiff.2 (by decide +kernel)
  exact ⟨vs, v, _, .refl, hread, hv, hms, rfl⟩

/-- The query about a named container is negated behind the name, and twice at that. -/
theorem wrap_not_not_ne : ∃ (vs : Variants) (v : Variant) (ms : List Node),
    (builtin {} .media).Extends vs ∧
    vs.read? "not-not-[@container_sidebar_(width>1px)]" =
      some (.compound "not" none (.compound "not" none v)) ∧
    (∀ ns, vs.wrap v ns = some [.atRule "container" "sidebar (width>1px)" ns]) ∧
    vs.wrap (.compound "not" none (.compound "not" none v)) [] = some ms ∧
    ms = [.atRule "container" "sidebar not not (width>1px)" []] ∧
    ms ≠ [.atRule "container" "sidebar (width>1px)" []] := by
  let vs := builtin {} .media
  let v : Variant := .arbitrary "@container sidebar (width>1px)" false
  obtain ⟨hread, hsome⟩ :
      vs.read? "not-not-[@container_sidebar_(width>1px)]" =
        some (.compound "not" none (.compound "not" none v)) ∧
      (vs.wrap (.compound "not" none (.compound "not" none v)) []).isSome := by
    decide +kernel
  obtain ⟨ms, hms⟩ := Option.isSome_iff_exists.1 hsome
  have hv (ns : List Node) : vs.wrap v ns = some [.atRule "container" "sidebar (width>1px)" ns] := rfl
  obtain ⟨wrapped, hwrapped⟩ := exists_wrapWithin_inner hms
  have hinner := wrapWithin_not .refl (wrapWithin_of_wrap (hv [])) hwrapped
  subst hinner
  have hparams : negateCondition "container" (negateCondition "container" "sidebar (width>1px)") =
      "sidebar not not (width>1px)" := by
    decide +kernel
  have houter := wrapWithin_not .refl hwrapped hms
  rw [hparams] at houter
  refine ⟨vs, v, ms, .refl, hread, hv, hms, houter, fun h => ?_⟩
  rw [houter, List.cons.injEq, Node.atRule.injEq] at h
  exact absurd h.1.2.1 (by decide)

end Variants

end UtilityCss
