import UtilityCss.Proofs.Design.Sort
import UtilityCss.Proofs.Stylesheet.Clean
import UtilityCss.Proofs.Variant.Alike

/-!
# Two forms of one variant

A variant is declared by a list of selectors and at-rules, or by a body in which the at-rules are
nested around one rule with all the selectors. Both forms wrap the same. What they produce is found
in different ways: the list is looked at as a whole, and of the body the outer nodes alone. The forms
therefore part where an at-rule hides selectors in the body.
-/

namespace UtilityCss

namespace Chars

variable {phrase s a b : List Char} {c : Char}

theorem prefix_append_cons (hc : c ∉ phrase) (h : phrase <+: a ++ c :: b) : phrase <+: a := by
  induction phrase generalizing a with
  | nil => exact List.nil_prefix
  | cons p phrase ih =>
    rw [List.mem_cons, not_or] at hc
    cases a with
    | nil => exact absurd (List.cons_prefix_cons.1 h).1.symm hc.1
    | cons x a =>
      rw [List.cons_append, List.cons_prefix_cons] at h
      exact List.cons_prefix_cons.2 ⟨h.1, ih hc.2 h.2⟩

theorem infix_append_cons_iff (hc : c ∉ phrase) :
    phrase <:+: a ++ c :: b ↔ phrase <:+: a ∨ phrase <:+: b := by
  refine ⟨fun h => ?_, ?_⟩
  · induction a with
    | nil =>
      rcases List.infix_cons_iff.1 h with h | h
      · exact .inl (prefix_append_cons (a := []) hc h).isInfix
      · exact .inr h
    | cons x a ih =>
      rcases List.infix_cons_iff.1 h with h | h
      · exact .inl (prefix_append_cons (a := x :: a) hc h).isInfix
      · exact (ih h).imp_left List.infix_cons
  · rintro (h | h)
    · exact h.trans (List.prefix_append a _).isInfix
    · exact h.trans ((List.suffix_cons c b).trans (List.suffix_append a _)).isInfix

end Chars

theorem containsPhrase_intercalate (texts : List String) :
    Text.containsPhrase (", ".intercalate texts) "::" = texts.any (Text.containsPhrase · "::") := by
  rw [Bool.eq_iff_iff]
  induction texts with
  | nil => decide
  | cons text texts ih =>
    rw [List.any_cons, Bool.or_eq_true, ← ih]
    cases texts with
    | nil =>
      rw [String.intercalate_singleton]
      exact ⟨.inl, fun h => h.resolve_right (by decide)⟩
    | cons text' texts =>
      have hsep : ", ".toList = [',', ' '] := rfl
      rw [String.intercalate_cons_cons, String.append_assoc]
      simp only [Text.containsPhrase, Chars.cutPhrase_isSome_iff, String.toList_append, hsep,
        List.cons_append, List.nil_append]
      rw [Chars.infix_append_cons_iff (by decide)]
      refine or_congr_right ?_
      rw [← List.nil_append (' ' :: _), Chars.infix_append_cons_iff (by decide)]
      exact or_iff_right (by decide)

/-- Whether a list of selectors and at-rules is not empty, and all its at-rules are conditions that
can be negated. -/
def AreConditions (list : List String) : Prop :=
  list ≠ [] ∧ ∀ text ∈ list, Text.startsWith text "@" → (Node.atHead? text).any (isNegatable ·.1)

instance (list : List String) : Decidable (AreConditions list) :=
  inferInstanceAs (Decidable (_ ∧ _))

def nestIn (ns : List Node) : List String → List Node
  | [] => ns
  | text :: texts =>
    match Node.atHead? text with
    | some (name, params) => [.atRule name params (nestIn ns texts)]
    | none => nestIn ns texts

/-- The at-rules of a list in each other, and inside them one rule for all its selectors around nodes,
or the nodes as they are if it has no selectors. -/
def nestSelectors (list : List String) (ns : List Node) : List Node :=
  let (ats, styles) := list.partition (Text.startsWith · "@")
  nestIn (if styles.isEmpty then ns else [.rule (", ".intercalate styles) ns]) ats

def nestedBody (list : List String) : List Node := nestSelectors list [.statement "slot" ""]

/-- Whether a list has an at-rule. -/
def hasAtRule (list : List String) : Bool := list.any (Text.startsWith · "@")

/-- Whether a list has a selector. -/
def hasSelector (list : List String) : Bool := list.any (!Text.startsWith · "@")

/-- Whether a list has a selector with a pseudo-element. -/
def hasPseudoElement (list : List String) : Bool :=
  list.any fun text => !Text.startsWith text "@" && Text.containsPhrase text "::"

theorem isEmpty_filter_eq_not_any {α : Type} (p : α → Bool) (as : List α) :
    (as.filter p).isEmpty = !as.any p := by
  induction as with
  | nil => rfl
  | cons a as ih => cases h : p a <;> simp [h, ih]

namespace VariantForms

section Forms

variable {list : List String} {ns : List Node}

private theorem wrapAtRules_eq {texts : List String}
    (h : ∀ text ∈ texts, (Node.atHead? text).isSome) :
    wrapAtRules ns texts = some (nestIn ns texts) := by
  induction texts with
  | nil => rfl
  | cons text texts ih =>
    obtain ⟨htext, htexts⟩ := List.forall_mem_cons.1 h
    obtain ⟨head, hhead⟩ := Option.isSome_iff_exists.1 htext
    simp [wrapAtRules, ih htexts, nestIn, Node.atRuleOf?, hhead]

theorem fillSlots_nestIn {texts : List String}
    (h : ∀ text ∈ texts, (Node.atHead? text).any (isNegatable ·.1)) (ms : List Node) :
    fillSlots ms (nestIn ns texts) = nestIn (fillSlots ms ns) texts := by
  induction texts with
  | nil => rfl
  | cons text texts ih =>
    obtain ⟨htext, htexts⟩ := List.forall_mem_cons.1 h
    cases hhead : Node.atHead? text with
    | none => rw [nestIn, nestIn, hhead, ih htexts]
    | some head =>
      rw [hhead] at htext
      have hslot : head.1 ≠ "slot" := by
        rintro hslot
        rw [Option.any_some, hslot] at htext
        exact absurd htext (by decide)
      have hat : (Node.atRule head.1 head.2 (nestIn ns texts)).isAt "slot" = false := by
        simp [Node.isAt, Node.atName?, hslot]
      rw [nestIn, nestIn, hhead, ← ih htexts]
      simp [fillSlots, replaceEach, Node.replace, hat]

theorem forall_atRules (h : AreConditions list) :
    ∀ text ∈ list.filter (Text.startsWith · "@"),
      (Node.atHead? text).any (isNegatable ·.1) := by
  intro text htext
  obtain ⟨hmem, hat⟩ := List.mem_filter.1 htext
  exact h.2 text hmem hat

theorem wrapSelectors_eq (h : AreConditions list) (ns : List Node) :
    wrapSelectors list ns = some (nestSelectors list ns) := by
  rw [wrapSelectors, nestSelectors, List.partition_eq_filter_filter]
  exact wrapAtRules_eq fun text htext => Option.isSome_of_any (forall_atRules h text htext)

theorem fillSlots_nestedBody (h : AreConditions list) (ns : List Node) :
    fillSlots ns (nestedBody list) = nestSelectors list ns := by
  rw [nestedBody, nestSelectors, nestSelectors, List.partition_eq_filter_filter]
  dsimp only
  rw [fillSlots_nestIn (forall_atRules h)]
  split <;> simp [fillSlots, replaceEach, Node.replace, Node.isAt, Node.atName?]

theorem alike_nestedBody (h : AreConditions list) :
    (VariantRule.selectors list).Alike (.body (nestedBody list)) where
  kind := rfl
  accepts := rfl
  wrap t value modifier ns :=
    (wrapSelectors_eq h ns).trans (congrArg some (fillSlots_nestedBody h ns)).symm
  change modifier n := by cases n <;> cases modifier <;> rfl

theorem startsWith_atHead? {text : String} {head : String × String} (hat : Text.startsWith text "@")
    (h : Node.atHead? text = some head) : Text.startsWith text ("@" ++ head.1) := by
  obtain ⟨s, hs⟩ := List.isPrefixOf_iff_prefix.1 hat
  have hs : '@' :: s = text.toList := hs
  have hstart : Chars.trimStart ('@' :: s) = '@' :: s := rfl
  obtain ⟨t, -, ht⟩ := Chars.exists_trimEnd ('@' :: s)
  rw [Node.atHead?, ← hs, Chars.trim, hstart] at h
  split at h
  · next u hu =>
    dsimp only at h
    split at h
    · cases h
    · cases h
      rw [hu, List.cons_append, List.cons.injEq] at ht
      simp only [Text.startsWith, List.isPrefixOf_iff_prefix, ← hs, String.toList_append,
        String.toList_ofList, ht.2]
      exact List.cons_prefix_cons.2
        ⟨rfl, (List.takeWhile_prefix _).trans (List.prefix_append u t)⟩
  · cases h

theorem any_startsWith_of_isNegatable {text : String} (hat : Text.startsWith text "@")
    (h : (Node.atHead? text).any (isNegatable ·.1)) :
    ["@media", "@supports", "@container"].any (Text.startsWith text) := by
  cases hhead : Node.atHead? text with
  | none =>
    rw [hhead] at h
    cases h
  | some head =>
    rw [hhead, Option.any_some, isNegatable, List.contains_iff_mem] at h
    have hstart := startsWith_atHead? hat hhead
    rw [List.any_eq_true]
    exact ⟨"@" ++ head.1, List.mem_map_of_mem (f := ("@" ++ ·)) h, hstart⟩

theorem produces_selectors (h : AreConditions list) :
    (VariantRule.selectors list).produces =
      if hasPseudoElement list then {} else ⟨hasSelector list, hasAtRule list⟩ := by
  have hats : (list.filter (Text.startsWith · "@")).all
      (fun s => ["@media", "@supports", "@container"].any (Text.startsWith s)) := by
    rw [List.all_eq_true]
    intro text htext
    exact any_startsWith_of_isNegatable (List.mem_filter.1 htext).2 (forall_atRules h text htext)
  rw [VariantRule.produces, compoundsOfSelectors, List.partition_eq_filter_filter]
  dsimp only
  rw [hats, Bool.true_and, isEmpty_filter_eq_not_any, isEmpty_filter_eq_not_any, Bool.not_not,
    Bool.not_not, ← List.not_any_eq_all_not, List.any_filter]
  change (if (!hasPseudoElement list) = true then _ else _) = _
  cases hasPseudoElement list <;> rfl

/-- A list with an at-rule wraps in one at-rule, whose condition can be negated. -/
theorem exists_nestSelectors (h : AreConditions list) (hat : hasAtRule list) (ns : List Node) :
    ∃ name params ms, isNegatable name ∧ nestSelectors list ns = [.atRule name params ms] := by
  have hats := forall_atRules h
  rw [nestSelectors, List.partition_eq_filter_filter]
  dsimp only
  cases hlist : list.filter (Text.startsWith · "@") with
  | nil =>
    obtain ⟨text, htext, hstart⟩ := List.any_eq_true.1 hat
    exact absurd (List.mem_filter.2 ⟨htext, hstart⟩) (hlist ▸ List.not_mem_nil)
  | cons text texts =>
    have htext := hats text (hlist ▸ List.mem_cons_self)
    cases hhead : Node.atHead? text with
    | none =>
      rw [hhead] at htext
      cases htext
    | some head =>
      rw [hhead, Option.any_some] at htext
      rw [nestIn, hhead]
      exact ⟨head.1, head.2, _, htext, rfl⟩

theorem produces_nestedBody (h : AreConditions list) :
    (VariantRule.body (nestedBody list)).produces =
      if hasAtRule list then ⟨false, true⟩
      else if hasPseudoElement list then {} else ⟨true, false⟩ := by
  cases hat : hasAtRule list with
  | true =>
    obtain ⟨name, params, ms, hname, hbody⟩ := exists_nestSelectors h hat [.statement "slot" ""]
    have hslot : name ≠ "slot" := by
      rintro rfl
      exact absurd hname (by decide)
    rw [nestedBody, hbody]
    simp [VariantRule.produces, compoundsOfBody, Node.atName?, hname, hslot]
  | false =>
    have hnone : ∀ text ∈ list, ¬ Text.startsWith text "@" = true := List.any_eq_false.1 hat
    have hats : list.filter (Text.startsWith · "@") = [] := List.filter_eq_nil_iff.2 hnone
    have hstyles : list.filter (not ∘ fun text => Text.startsWith text "@") = list :=
      List.filter_eq_self.2 fun text htext => by simp [hnone text htext]
    have hpseudo : hasPseudoElement list = list.any (Text.containsPhrase · "::") := by
      rw [hasPseudoElement, ← List.any_filter]
      exact congrArg (List.any · _) hstyles
    rw [VariantRule.produces, nestedBody, nestSelectors, List.partition_eq_filter_filter]
    dsimp only
    rw [hats, nestIn, hstyles, if_neg (by simpa using h.1), hpseudo, ← containsPhrase_intercalate]
    cases hphrase : Text.containsPhrase (", ".intercalate list) "::" <;>
      simp [compoundsOfBody, Node.atName?, hphrase]

theorem hasSelector_of_not_hasAtRule (h : AreConditions list) (hat : hasAtRule list = false) :
    hasSelector list := by
  obtain ⟨text, texts, rfl⟩ := List.exists_cons_of_ne_nil h.1
  rw [hasAtRule, List.any_cons, Bool.or_eq_false_iff] at hat
  rw [hasSelector, List.any_cons, hat.1]
  rfl

private theorem hasSelector_of_hasPseudoElement (h : hasPseudoElement list) : hasSelector list := by
  obtain ⟨text, htext, hpseudo⟩ := List.any_eq_true.1 h
  exact List.any_eq_true.2 ⟨text, htext, (Bool.and_eq_true_iff.1 hpseudo).1⟩

/-- The forms produce the same but for a list with at-rules and selectors. -/
theorem produces_eq_iff (h : AreConditions list) :
    (VariantRule.selectors list).produces = (VariantRule.body (nestedBody list)).produces ↔
      ¬ (hasAtRule list ∧ hasSelector list) := by
  rw [produces_selectors h, produces_nestedBody h]
  have hselector := hasSelector_of_not_hasAtRule h
  have hpseudo : hasPseudoElement list → hasSelector list := hasSelector_of_hasPseudoElement
  revert hselector hpseudo
  cases hasAtRule list <;> cases hasSelector list <;> cases hasPseudoElement list <;> decide

end Forms

end VariantForms

open VariantForms

theorem change_atRule_eq_none {r : VariantRule} (h : r.accepts.atRules = false)
    (modifier : Option Argument) (name params : String) (ns : List Node) :
    r.change modifier (.atRule name params ns) = none := by
  cases r with
  | negation => cases h
  | _ => cases modifier <;> rfl

namespace Variants

variable {list : List String} {vs : Variants} {name : String}

/-- A variant that is declared by a list with an at-rule puts one at-rule around nothing. -/
theorem exists_wrapWithin_nil (h : AreConditions list) (hat : hasAtRule list) {inner : Variant}
    (hroot : inner.root? = some name)
    (hinner : (vs.register name (.selectors list)).Allows inner) :
    ∃ n params ms, ∀ parent, (vs.register name (.selectors list)).wrapWithin parent inner [] =
      some [.atRule n params ms] := by
  have hget : (vs.register name (.selectors list)).get? name =
      some ⟨name, .selectors list, vs.orderOf (.static name)⟩ := by
    rw [get?_register, if_pos rfl]
  obtain ⟨n, params, ms, -, hnest⟩ := exists_nestSelectors h hat []
  have hwrap : wrapSelectors list [] = some [.atRule n params ms] := by
    rw [wrapSelectors_eq h, hnest]
  refine ⟨n, params, ms, fun parent => ?_⟩
  cases inner with
  | static r =>
    cases hroot
    rw [wrapWithin, hget]
    exact hwrap
  | functional r value m =>
    cases hroot
    rw [wrapWithin, hget]
    exact hwrap
  | compound r m w =>
    -- A variant that is declared by a list stands around nothing.
    cases hroot
    have hcompounds := hinner.1
    rw [compoundsWith, hget] at hcompounds
    split at hcompounds
    · next he _ =>
      cases he
      exact absurd hcompounds Bool.false_ne_true
    · exact absurd hcompounds Bool.false_ne_true
  | arbitrary => cases hroot

/-- What stands around an allowed variant that a list of selectors with at-rules declares, and changes
no at-rules, wraps nothing. -/
theorem refuses_compound (h : AreConditions list) (hat : hasAtRule list) {inner : Variant}
    (hroot : inner.root? = some name)
    (hinner : (vs.register name (.selectors list)).Allows inner) {root : String} {e : VariantEntry}
    (he : (vs.register name (.selectors list)).get? root = some e)
    (hatRules : e.rule.accepts.atRules = false) (modifier : Option Argument) :
    (vs.register name (.selectors list)).Refuses (.compound root modifier inner) := by
  obtain ⟨n, params, ms, hwrapped⟩ := exists_wrapWithin_nil h hat hroot hinner
  intro parent ns
  rw [wrapWithin, he, Option.bind_eq_bind, Option.bind_some, hwrapped]
  have hchange := change_atRule_eq_none hatRules modifier n params ms
  simp [hchange]

/-- Around a variant that the list declares with at-rules and selectors, what only the first form allows
wraps nothing. -/
theorem compoundsWith_eq_or_refuses (h : AreConditions list) (hat : hasAtRule list)
    (hselector : hasSelector list) (hpseudo : hasPseudoElement list = false) {inner : Variant}
    (hroot : inner.root? = some name)
    (hinner : (vs.register name (.selectors list)).Allows inner) (root : String) :
    (vs.register name (.selectors list)).compoundsWith root inner =
        (vs.register name (.body (nestedBody list))).compoundsWith root inner ∨
      (vs.register name (.body (nestedBody list))).compoundsWith root inner = false ∧
        ∀ modifier, (vs.register name (.selectors list)).Refuses (.compound root modifier inner) := by
  have hproduces : (vs.register name (.selectors list)).produces? inner = some ⟨true, true⟩ := by
    rw [produces?_register hroot, produces_selectors h, hat, hselector, hpseudo]
    rfl
  have hproduces' : (vs.register name (.body (nestedBody list))).produces? inner =
      some ⟨false, true⟩ := by
    rw [produces?_register hroot, produces_nestedBody h, hat]
    rfl
  have hrel := (Alike.register vs name (alike_nestedBody h)).get? root
  have hrefuses (e : VariantEntry) (he : (vs.register name (.selectors list)).get? root = some e) :=
    refuses_compound h hat hroot hinner he
  rw [compoundsWith, compoundsWith, hproduces, hproduces']
  generalize (vs.register name (.selectors list)).get? root = e,
    (vs.register name (.body (nestedBody list))).get? root = e' at hrel hrefuses ⊢
  cases hrel with
  | none => exact .inl rfl
  | @some e e' hrel =>
    have haccepts := hrel.rule.accepts
    cases hatRules : e.rule.accepts.atRules with
    | true => exact .inl (by simp [Compounds.meets, ← haccepts, hatRules])
    | false => exact .inr ⟨by simp [Compounds.meets, ← haccepts, hatRules], hrefuses e rfl hatRules⟩

/-- The forms allow the same compounds, or what only one of them allows wraps nothing, unless the list
has at-rules and pseudo-elements. -/
theorem allowsAlike_register (h : AreConditions list)
    (hpseudo : ¬ (hasAtRule list ∧ hasPseudoElement list)) (vs : Variants) (name : String) :
    (vs.register name (.selectors list)).AllowsAlike
      (vs.register name (.body (nestedBody list))) := by
  have halike := Alike.register vs name (alike_nestedBody h)
  intro root inner hinner
  by_cases hroot : inner.root? = some name
  · by_cases hsame :
      (VariantRule.selectors list).produces = (VariantRule.body (nestedBody list)).produces
    · refine .inl (halike.compoundsWith ?_ root)
      rw [produces?_register hroot, produces?_register hroot, hsame]
    · obtain ⟨hat, hselector⟩ := not_not.1 (mt (produces_eq_iff h).2 hsame)
      exact compoundsWith_eq_or_refuses h hat hselector (by simpa [hat] using hpseudo) hroot hinner root
  · exact .inl (halike.compoundsWith
      ((produces?_register_of_ne hroot).trans (produces?_register_of_ne hroot).symm) root)

end Variants

namespace DesignSystem

variable {d : DesignSystem} {vs ws : Variants}

theorem compile?_eq_of_alike (h : vs.Alike ws) (hallows : vs.AllowsAlike ws) (raw : String) :
    ({ d with variants := vs } : DesignSystem).compile? raw =
      ({ d with variants := ws } : DesignSystem).compile? raw := by
  have hreading : ({ d with variants := vs } : DesignSystem).compileReading? =
      ({ d with variants := ws } : DesignSystem).compileReading? := by
    funext c
    have hcompare : (fun a b => vs.compare b a) = fun a b => ws.compare b a :=
      funext fun a => funext fun b => h.compare b a
    simp only [compileReading?, h.wrapAll, hcompare]
    rfl
  rw [compile?, compile?, hreading, candidates, candidates, readCandidates, readCandidates]
  dsimp only
  split
  · rfl
  · obtain hsame | ⟨hnone, hrefuses⟩ := h.mapM_read? hallows (splitVariants raw).1
    · rw [hsame]
    · rw [hnone]
      split
      · rfl
      · next chain hchain =>
        obtain ⟨v, hv, hvrefuses⟩ := hrefuses chain hchain
        rw [List.findSome?_nil, List.findSome?_eq_none_iff]
        intro c hc
        obtain ⟨form, -, rfl⟩ := List.mem_map.1 hc
        rw [← hreading, compileReading?]
        simp [Variants.wrapAll_eq_none hv hvrefuses]

def ofCompounds : DesignSystem where
  theme := {}
  utilities := {}
  variants := { entries := [⟨"not", .negation, 0⟩, ⟨"has", .has, 1⟩], nextOrder := 2 }

section OfCompounds

variable (rule : VariantRule)

theorem compoundsWith_not : (ofCompounds.addVariant "v" rule).variants.compoundsWith "not" (.static "v") =
    (rule.produces.styleRules || rule.produces.atRules) := by
  rfl

theorem compoundsWith_has : (ofCompounds.addVariant "v" rule).variants.compoundsWith "has" (.static "v") =
    rule.produces.styleRules := by
  change (rule.produces.styleRules || false) = _
  rw [Bool.or_false]

theorem read?_not (hrule : rule.kind = .static) :
    (ofCompounds.addVariant "v" rule).variants.read? "not-v" =
      if rule.produces.styleRules || rule.produces.atRules then
        some (.compound "not" none (.static "v"))
      else none := by
  rw [← compoundsWith_not]
  generalize hvs : (ofCompounds.addVariant "v" rule).variants = vs
  have hknown : (fun root => vs.has (String.ofList root)) =
      fun root => ["not", "has", "v"].contains (String.ofList root) := by
    subst hvs
    funext root
    rw [Variants.has, Variants.get?, List.isSome_find?, List.contains_eq_any_beq]
    simp only [BEq.comm]
    rfl
  have hnot : vs.kind? "not" = some .compound := by
    subst hvs
    rfl
  have hv : vs.kind? "v" = some .static := by
    subst hvs
    exact congrArg some hrule
  have hinner : vs.readFrom? "v".toList = some (.static "v") := by
    have hroot : (Chars.findRoots (fun root => ["not", "has", "v"].contains (String.ofList root))
        "v".toList).head? = some ("v".toList, none) := by decide
    have hsplit : Chars.splitModifier? "v".toList = some ("v".toList, none) := by decide
    rw [Variants.readFrom?_named (by decide), hsplit, Option.bind_some, hknown, hroot,
      Option.bind_some, Variants.assemble?, String.ofList_toList, hv]
    rfl
  have hroot : (Chars.findRoots (fun root => ["not", "has", "v"].contains (String.ofList root))
      "not-v".toList).head? = some ("not".toList, some "v".toList) := by decide
  have hsplit : Chars.splitModifier? "not-v".toList = some ("not-v".toList, none) := by decide
  rw [Variants.read?, Variants.readFrom?_named (by decide), hsplit, Option.bind_some, hknown, hroot,
    Option.bind_some, Option.bind_some, hinner]
  exact Variants.assemble?_compound hnot _ _ _

theorem compile?_not_eq_none (hrule : rule.kind = .static) (hproduces : rule.produces = {}) :
    (ofCompounds.addVariant "v" rule).compile? "not-v:[a:b]" = none := by
  have hread := read?_not rule hrule
  rw [hproduces] at hread
  have hsplit : splitVariants "not-v:[a:b]" = (["not-v"], "[a:b]") := by decide
  rw [compile?, candidates, readCandidates, hsplit]
  dsimp only
  rw [List.mapM_cons, hread]
  rfl

theorem compile?_not_isSome (hrule : rule.kind = .static) (hproduces : rule.produces.atRules)
    {name params : String} {ms : List Node} (hname : isNegatable name)
    (hwrap : rule.wrap {} none none [] = some [.atRule name params ms]) :
    ((ofCompounds.addVariant "v" rule).compile? "not-v:[a:b]").isSome := by
  have hread := read?_not rule hrule
  rw [hproduces, Bool.or_true, if_pos rfl] at hread
  have hsplit : splitVariants "not-v:[a:b]" = (["not-v"], "[a:b]") := by decide
  have hform : ofCompounds.utilities.readForms (cutImportant "[a:b]").1 = [.property "a" "b" none] := by
    decide
  have hwrapAll (ns : List Node) : (ofCompounds.addVariant "v" rule).variants.wrapAll
      [.compound "not" none (.static "v")] ns =
        some (fillEach ns [.atRule name (negateCondition name params) ms]) := by
    have hinner : (ofCompounds.addVariant "v" rule).variants.wrapWithin (some "not") (.static "v") [] =
        some [.atRule name params ms] := hwrap
    change ((ofCompounds.addVariant "v" rule).variants.wrapWithin none
      (.compound "not" none (.static "v")) ns).bind some = _
    rw [Variants.wrapWithin_compound, Variants.frame?, hinner]
    change (([Node.atRule name params ms].mapM (VariantRule.negation.change none)).map (fillEach ns)).bind
      some = _
    simp [VariantRule.change, hname]
  rw [compile?, candidates, readCandidates, hsplit]
  dsimp only
  rw [List.mapM_cons, hread]
  change (((ofCompounds.utilities.readForms (cutImportant "[a:b]").1).map fun form =>
    (⟨form, [.compound "not" none (.static "v")], _, _⟩ : Candidate)).findSome? _).isSome
  rw [hform, List.map_singleton, List.findSome?_singleton, compileReading?]
  change ((some ([Node.plain "a" "b"], _)).bind _).isSome
  simp [hwrapAll]

end OfCompounds

/-- Both forms of a declared variant wrap the same. Compounds treat them alike but for a list with
at-rules and selectors, and every class name is compiled the same but for a list with at-rules and
pseudo-elements. -/
theorem selectors_body_agree_iff {list : List String} (h : AreConditions list) :
    (∀ (d : DesignSystem) (name : String) (parent : Option String) (v : Variant) (ns : List Node),
      (d.addVariant name (.selectors list)).variants.wrapWithin parent v ns =
        (d.addVariant name (.body (nestedBody list))).variants.wrapWithin parent v ns) ∧
    ((∀ (d : DesignSystem) (name parent : String),
      (d.addVariant name (.selectors list)).variants.compoundsWith parent (.static name) =
        (d.addVariant name (.body (nestedBody list))).variants.compoundsWith parent (.static name)) ↔
      ¬ (hasAtRule list ∧ hasSelector list)) ∧
    ((∀ (d : DesignSystem) (name raw : String),
      (d.addVariant name (.selectors list)).compile? raw =
        (d.addVariant name (.body (nestedBody list))).compile? raw) ↔
      ¬ (hasAtRule list ∧ hasPseudoElement list)) := by
  refine ⟨fun d name parent v ns => ?_, ⟨fun hall => ?_, fun hnot d name parent => ?_⟩,
    fun hall ⟨hat, hpseudo⟩ => ?_, fun hnot d name raw => ?_⟩
  · exact (Variants.Alike.register d.variants name (alike_nestedBody h)).wrapWithin parent v ns
  · have hnegation := hall ofCompounds "v" "not"
    have hinside := hall ofCompounds "v" "has"
    rw [compoundsWith_not, compoundsWith_not] at hnegation
    rw [compoundsWith_has, compoundsWith_has] at hinside
    rw [← produces_eq_iff h]
    rw [produces_selectors h, produces_nestedBody h] at hnegation hinside ⊢
    revert hnegation hinside
    cases hasAtRule list <;> cases hasSelector list <;> cases hasPseudoElement list <;> decide
  · refine (Variants.Alike.register d.variants name (alike_nestedBody h)).compoundsWith ?_ parent
    rw [Variants.produces?_register rfl, Variants.produces?_register rfl, (produces_eq_iff h).2 hnot]
  · obtain ⟨name, params, ms, hname, hnest⟩ := exists_nestSelectors h hat []
    have hnone := compile?_not_eq_none (.selectors list) rfl
      (by rw [produces_selectors h, if_pos hpseudo])
    have hsome := compile?_not_isSome (.body (nestedBody list)) rfl
      (by rw [produces_nestedBody h, if_pos hat]) hname
      ((congrArg some (fillSlots_nestedBody h [])).trans (congrArg some hnest))
    rw [← hall, hnone] at hsome
    cases hsome
  · exact compile?_eq_of_alike (Variants.Alike.register d.variants name (alike_nestedBody h))
      (Variants.allowsAlike_register h hnot d.variants name) raw

/-- Class names are compiled the same with both forms of hovering in print, around which the compounds
do not treat them alike. -/
theorem selectors_body_agree_print_hover :
    let list := ["@media print", "&:hover"]
    AreConditions list ∧
      (¬ ∀ (d : DesignSystem) (name parent : String),
        (d.addVariant name (.selectors list)).variants.compoundsWith parent (.static name) =
          (d.addVariant name (.body (nestedBody list))).variants.compoundsWith parent
            (.static name)) ∧
      ∀ (d : DesignSystem) (name raw : String),
        (d.addVariant name (.selectors list)).compile? raw =
          (d.addVariant name (.body (nestedBody list))).compile? raw := by
  have h : AreConditions ["@media print", "&:hover"] := by decide
  obtain ⟨-, hcompounds, hcompile⟩ := selectors_body_agree_iff h
  exact ⟨h, fun hall => hcompounds.1 hall (by decide), hcompile.2 (by decide)⟩

/-- A list with a pseudo-element cannot be negated, and its body can if the pseudo-element is inside an
at-rule. A list with a selector can be the state of a group, and its body cannot if the selector is
inside an at-rule. -/
theorem not_selectors_body_agree :
    let d := builtin {} .media
    let before := ["@media print", "&::before"]
    let hover := ["@media print", "&:hover"]
    AreConditions before ∧ AreConditions hover ∧
      ((d.addVariant "foo" (.selectors before)).compile? "not-foo:flex").isNone ∧
      ((d.addVariant "foo" (.body (nestedBody before))).compile? "not-foo:flex").isSome ∧
      (d.addVariant "foo" (.selectors hover)).variants.compoundsWith "group" (.static "foo") ∧
      ¬ (d.addVariant "foo" (.body (nestedBody hover))).variants.compoundsWith "group"
        (.static "foo") := by
  decide +kernel

end DesignSystem

end UtilityCss
