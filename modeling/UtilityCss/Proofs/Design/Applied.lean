import UtilityCss.Proofs.Design.Expanded
import UtilityCss.Proofs.Utility.Answered
import UtilityCss.Proofs.Utility.Recipe
import UtilityCss.Proofs.Variant.Slot

/-!
# Where lists of applied class names come from

A class name stands for nodes of a utility in the wrappers of variants. Neither the values in it nor
the steps from there to the nodes make an `@apply`, so that one comes from the body of a utility, from
a variant that is declared with one, or from a variant in brackets that is one itself. The bodies of
utilities are expanded when they are declared, which leaves variants.
-/

namespace UtilityCss

/-- Whether all lists of applied class names among nodes or inside them satisfy a predicate. -/
def AppliesOnly (p : String → Prop) (ns : List Node) : Prop :=
  ∀ n ∈ allNodes ns, n.isApply → p n.params

/-- Whether no list of applied class names is among nodes or inside them. -/
def NoApply (ns : List Node) : Prop := AppliesOnly (fun _ => False) ns

instance : DecidablePred NoApply :=
  fun ns => inferInstanceAs (Decidable (∀ n ∈ allNodes ns, n.isApply → False))

section Forest

variable {p : String → Prop} {n : Node} {ns ms : List Node}

theorem isOfHead_isApply : IsOfHead fun n => n.isApply → p n.params := by
  intro n ns
  dsimp only
  rw [Node.isApply_withChildren, Node.params_withChildren]

theorem isOfHead_noApply : IsOfHead fun n => n.isApply → False :=
  isOfHead_isApply (p := fun _ => False)

@[simp]
theorem appliesOnly_nil : AppliesOnly p [] := nofun

theorem appliesOnly_cons : AppliesOnly p (n :: ns) ↔
    (n.isApply → p n.params) ∧ AppliesOnly p n.children ∧ AppliesOnly p ns :=
  forall_allNodes_cons

theorem appliesOnly_append : AppliesOnly p (ns ++ ms) ↔ AppliesOnly p ns ∧ AppliesOnly p ms :=
  forall_allNodes_append

theorem appliesOnly_singleton :
    AppliesOnly p [n] ↔ (n.isApply → p n.params) ∧ AppliesOnly p n.children := by
  rw [appliesOnly_cons, and_iff_left appliesOnly_nil]

private theorem NoApply.appliesOnly (h : NoApply ns) : AppliesOnly p ns :=
  fun n hn happly => (h n hn happly).elim

theorem appliesOnly_rule {sel : String} : AppliesOnly p [.rule sel ns] ↔ AppliesOnly p ns :=
  appliesOnly_singleton.trans (and_iff_right fun h => absurd h Bool.false_ne_true)

theorem not_isApply_atRule {name params : String} (hname : name ≠ "apply") :
    ¬ (Node.atRule name params ns).isApply := by
  simpa [Node.isApply, Node.isAt, Node.atName?] using hname

theorem AppliesOnly.atRule {name params : String} (hname : name ≠ "apply") (h : AppliesOnly p ns) :
    AppliesOnly p [.atRule name params ns] :=
  appliesOnly_singleton.2 ⟨fun happly => absurd happly (not_isApply_atRule hname), h⟩

theorem appliesOnly_of_isDecl (h : ∀ n ∈ ns, n.isDecl) : AppliesOnly p ns := by
  induction ns with
  | nil => exact appliesOnly_nil
  | cons n ns ih =>
    obtain ⟨hn, hns⟩ := List.forall_mem_cons.1 h
    cases n with
    | decl => exact appliesOnly_cons.2 ⟨nofun, appliesOnly_nil, ih hns⟩
    | _ => exact absurd hn Bool.false_ne_true

theorem appliesOnly_plain {property value : String} : AppliesOnly p [.plain property value] :=
  appliesOnly_of_isDecl (List.forall_mem_singleton.2 rfl)

theorem appliesOnly_iff_forall_mem : AppliesOnly p ns ↔ ∀ n ∈ ns, AppliesOnly p [n] := by
  induction ns with
  | nil => simp
  | cons n ns ih => rw [← List.singleton_append, appliesOnly_append, ih]; simp

theorem appliesOnly_definition {name : String} {definition : PropertyDefinition} :
    AppliesOnly p [definition.node name] := by
  refine AppliesOnly.atRule (by decide) (appliesOnly_of_isDecl ?_)
  simp [Node.plain, Node.isDecl]

/-- Evaluating functions keeps the names of at-rules. -/
theorem noApply_evaluateEach {t : Theme} (h : evaluateEach t ns = .ok ms) :
    NoApply ms ↔ NoApply ns := by
  induction ns using forest_induction generalizing ms with
  | nil =>
    cases h
    exact Iff.rfl
  | cons n ns ihn ih =>
    obtain ⟨m, rest, hm, hrest, rfl⟩ := evaluateEach_cons h
    obtain ⟨-, -, happly, hinner⟩ := evaluate_cases hm
    refine appliesOnly_cons.trans (Iff.trans ?_ appliesOnly_cons.symm)
    rw [happly]
    exact and_congr_right' (and_congr (ihn hinner) (ih hrest))

end Forest

mutual

private theorem Template.noApply_fill (value : String) (t : Template) : NoApply [t.fill value] := by
  match t with
  | .decl _ _ => exact appliesOnly_plain
  | .rule _ body => exact appliesOnly_rule.2 (noApply_fillTemplates value body)
  | .property _ _ => exact appliesOnly_definition

theorem noApply_fillTemplates (value : String) (ts : List Template) :
    NoApply (fillTemplates value ts) := by
  match ts with
  | [] => exact appliesOnly_nil
  | t :: ts =>
    exact appliesOnly_append.2 ⟨t.noApply_fill value, noApply_fillTemplates value ts⟩

end

/-- Whether a text is no `@apply`, where it may be the head of an at-rule. -/
def HeadsNoApply (text : String) : Prop := ∀ p ∈ Node.atHead? text, p.1 ≠ "apply"

instance : DecidablePred HeadsNoApply :=
  fun text => inferInstanceAs (Decidable (∀ p ∈ Node.atHead? text, p.1 ≠ "apply"))

def VariantRule.HoldsNoApply : VariantRule → Prop
  | selectors list => ∀ text ∈ list, HeadsNoApply text
  | body nodes => NoApply nodes
  | block name _ => name ≠ "apply"
  | _ => True

instance : DecidablePred VariantRule.HoldsNoApply
  | .selectors list => inferInstanceAs (Decidable (∀ text ∈ list, HeadsNoApply text))
  | .body nodes => inferInstanceAs (Decidable (NoApply nodes))
  | .block name _ => inferInstanceAs (Decidable (name ≠ "apply"))
  | .content _ | .directChildren | .breakpoint _ | .container _ | .aria | .data | .nth _
  | .supports | .negation | .marker _ _ | .has | .within => inferInstanceAs (Decidable True)

def Variant.HoldsNoApply : Variant → Prop
  | arbitrary selector _ => HeadsNoApply selector
  | compound _ _ inner => inner.HoldsNoApply
  | static _ | functional _ _ _ => True

instance Variant.decidableHoldsNoApply : (v : Variant) → Decidable v.HoldsNoApply
  | arbitrary selector _ => inferInstanceAs (Decidable (HeadsNoApply selector))
  | compound _ _ inner => inner.decidableHoldsNoApply
  | static _ | functional _ _ _ => inferInstanceAs (Decidable True)

def Variants.HoldNoApply (vs : Variants) : Prop := vs.AllRules fun _ rule => rule.HoldsNoApply

instance : DecidablePred Variants.HoldNoApply :=
  fun vs => inferInstanceAs (Decidable (∀ e ∈ vs.entries, e.rule.HoldsNoApply))

section Wrap

variable {p : String → Prop} {ns ms : List Node} {vs : Variants} {v : Variant} {r : VariantRule}

private theorem appliesOnly_atRuleOf {text : String} {n : Node} (htext : HeadsNoApply text)
    (hns : AppliesOnly p ns) (h : Node.atRuleOf? text ns = some n) : AppliesOnly p [n] := by
  obtain ⟨head, hhead, rfl⟩ := Option.map_eq_some_iff.1 h
  exact hns.atRule (htext head hhead)

theorem ne_apply_of_isNegatable {name : String} (h : isNegatable name) : name ≠ "apply" := by
  rintro rfl
  exact absurd h (by decide)

/-- What a variant wraps nodes in holds no `@apply` if the variant is declared without one. -/
theorem VariantRule.HoldsNoApply.wrap {t : Theme} {value modifier : Option Argument}
    (hr : r.HoldsNoApply) (hns : AppliesOnly p ns) (h : r.wrap t value modifier ns = some ms) :
    AppliesOnly p ms := by
  cases wraps_of_wrap h with
  | selectors h =>
    refine (forall_wrapSelectors isOfHead_isApply (fun _ _ => nofun) h).2
      ⟨fun text htext _ head hhead happly => ?_, hns⟩
    exact absurd happly (not_isApply_atRule (hr text htext head hhead))
  | body nodes =>
    refine isOfHead_isApply.replaceEach (fun _ hn _ => hn) (fun n new _ hnew => ?_)
      (NoApply.appliesOnly hr)
    obtain ⟨-, hnew⟩ := Option.ite_none_right_eq_some.1 hnew
    cases hnew
    exact hns
  | content selector =>
    exact appliesOnly_rule.2
      (appliesOnly_append.2 ⟨appliesOnly_append.2 ⟨appliesOnly_plain, hns⟩, appliesOnly_definition⟩)
  | directChildren | aria | data | nth => exact appliesOnly_rule.2 hns
  | block name params => exact hns.atRule hr
  | breakpoint | container | supports => exact hns.atRule (by decide)

/-- A compound changes selectors and conditions only. -/
theorem appliesOnly_change {modifier : Option Argument} {n n' : Node} (hn : AppliesOnly p [n])
    (h : r.change modifier n = some n') : AppliesOnly p [n'] := by
  cases VariantRule.changes_of_change h with
  | rule => exact appliesOnly_rule.2 (appliesOnly_rule.1 hn)
  | atRule _ _ hname =>
    exact AppliesOnly.atRule (ne_apply_of_isNegatable hname) (appliesOnly_singleton.1 hn).2
  | statement _ hname =>
    refine appliesOnly_singleton.2
      ⟨fun happly => absurd ?_ (ne_apply_of_isNegatable hname), appliesOnly_nil⟩
    simpa [Node.isApply, Node.isAt, Node.atName?] using happly

namespace Variants

theorem HoldNoApply.keeps (hvs : vs.HoldNoApply) (hv : v.HoldsNoApply) :
    vs.Keeps (fun n => n.isApply → p n.params) v := by
  intro ns ms hns h
  refine wrapWithin_induction (K := fun v ns ms => v.HoldsNoApply → AppliesOnly p ns →
    AppliesOnly p ms) ?_ ?_ ?_ ?_ ?_ h hv hns
  · intro root e ns ms he h _ hns
    exact (hvs.get? he).wrap hns h
  · intro root value modifier e ns ms he h _ hns
    exact (hvs.get? he).wrap hns h
  · intro root modifier inner e wrapped changed ns _ ih hchanged hv hns
    have hinner := appliesOnly_iff_forall_mem.1 (ih hv appliesOnly_nil)
    refine isOfHead_isApply.fillEach (appliesOnly_iff_forall_mem.2 fun n' hn' => ?_) hns
    obtain ⟨n, hn, hchange⟩ := exists_of_mem_mapM hchanged hn'
    exact appliesOnly_change (hinner n hn) hchange
  · intro selector relative ns n _ hn hv hns
    exact appliesOnly_atRuleOf hv hns hn
  · intro selector relative ns _ _ hns
    exact appliesOnly_rule.2 hns

end Variants

end Wrap

/-- Whether a utility has no `@apply` in its body. Nothing is known of what plugins declare. -/
def Recipe.HoldsNoApply : Recipe → Prop
  | fixed nodes | declared nodes => NoApply nodes
  | matched _ _ => False
  | _ => True

instance : DecidablePred Recipe.HoldsNoApply
  | .fixed nodes | .declared nodes => inferInstanceAs (Decidable (NoApply nodes))
  | .matched _ _ => inferInstanceAs (Decidable False)
  | .valued _ _ | .colored _ _ | .aspectRatio | .background | .gradient | .fontSize
  | .content => inferInstanceAs (Decidable True)

def Utilities.HoldNoApply (us : Utilities) : Prop := ∀ e ∈ us.entries, e.2.HoldsNoApply

section Recipe

variable {t : Theme} {c : Candidate} {ns : List Node}

private theorem noApply_gradient {v : CandidateValue} (h : gradientNodes? v = some ns) :
    NoApply ns := by
  rw [gradientNodes?.eq_def] at h
  split at h
  · cases h
    exact noApply_fillTemplates _ _
  · obtain ⟨direction, -, rfl⟩ := Option.map_eq_some_iff.1 h
    exact noApply_fillTemplates _ _
  · cases h

private theorem noApply_fontSize {v : CandidateValue} {modifier : Option Argument}
    (h : fontSizeNodes? t v modifier = some ns) : NoApply ns := by
  obtain ⟨⟨size, nested⟩, hsize, h⟩ := Option.bind_eq_some_iff.1 h
  have hnested : ∀ n ∈ nested, n.isDecl := by
    intro n hn
    rw [fontSize?.eq_def] at hsize
    split at hsize
    · split at hsize
      · cases hsize
        exact absurd hn List.not_mem_nil
      · cases hsize
    · obtain ⟨⟨_, texts⟩, -, hsize⟩ := Option.bind_eq_some_iff.1 hsize
      cases hsize
      obtain ⟨part, -, hn⟩ := List.mem_filterMap.1 hn
      obtain ⟨names, -, rfl⟩ := Option.map_eq_some_iff.1 hn
      rfl
  cases modifier with
  | none =>
    cases h
    exact appliesOnly_of_isDecl (List.forall_mem_cons.2 ⟨rfl, hnested⟩)
  | some m =>
    obtain ⟨height, -, h⟩ := Option.bind_eq_some_iff.1 h
    cases h
    exact appliesOnly_of_isDecl (by simp [Node.plain, Node.isDecl])

/-- What a utility generates holds no `@apply` if its body does not. -/
theorem Recipe.HoldsNoApply.nodes {r : Recipe} (hr : r.HoldsNoApply) (h : r.nodes? t c = some ns) :
    NoApply ns := by
  cases gives_of_nodes? h with
  | fixed => exact hr
  | valued => exact noApply_fillTemplates _ _
  | colored => exact noApply_fillTemplates _ _
  | declared hns =>
    obtain ⟨value, -, hns⟩ := Option.bind_eq_some_iff.1 hns
    obtain ⟨-, hns⟩ := Option.ite_none_left_eq_some.1 hns
    cases hns
    exact isOfHead_noApply.answerEach (fun _ hn _ => hn) (fun _ _ _ _ _ _ => nofun) hr
  | matched => exact hr.elim
  | aspectRatio => exact appliesOnly_plain
  | background => exact appliesOnly_plain
  | gradient _ hns => exact noApply_gradient hns
  | fontSize _ hns => exact noApply_fontSize hns
  | content => exact noApply_fillTemplates _ _

/-- The built-in utilities have no `@apply` in their bodies. -/
theorem holdNoApply_builtinUtilities : Utilities.builtin.HoldNoApply := by
  have hall : ∀ e ∈ builtinUtilities, e.2.HoldsNoApply := by decide +kernel
  exact hall

end Recipe

namespace Variants

/-- Whether no variant of a class name is an `@apply` in brackets. -/
def NamesNoApply (vs : Variants) (raw : String) : Prop :=
  ∀ text ∈ (splitVariants raw).1, ∀ v ∈ vs.read? text, v.HoldsNoApply

def ListsNoApply (vs : Variants) (params : String) : Prop :=
  ∀ raw ∈ Text.words params, vs.NamesNoApply raw

/-- Whether the class names that a node applies and the variant that it wraps its body in are no
`@apply` in brackets. -/
def WritesNoApply (vs : Variants) (n : Node) : Prop :=
  (n.isApply → vs.ListsNoApply n.params) ∧
    (n.isVariantBlock → ∀ v ∈ vs.read? (Text.trim n.params), v.HoldsNoApply)

instance (vs : Variants) : DecidablePred vs.NamesNoApply :=
  fun raw => inferInstanceAs
    (Decidable (∀ text ∈ (splitVariants raw).1, ∀ v ∈ vs.read? text, v.HoldsNoApply))

instance (vs : Variants) : DecidablePred vs.ListsNoApply :=
  fun params => inferInstanceAs (Decidable (∀ raw ∈ Text.words params, vs.NamesNoApply raw))

instance (vs : Variants) : DecidablePred vs.WritesNoApply :=
  fun n => inferInstanceAs (Decidable ((n.isApply → vs.ListsNoApply n.params) ∧
    (n.isVariantBlock → ∀ v ∈ vs.read? (Text.trim n.params), v.HoldsNoApply)))

end Variants

namespace DesignSystem

variable {d : DesignSystem} {ns ms : List Node}

/-- A class name stands for nodes without an `@apply`, unless it has a variant or a utility with
one. -/
theorem gives_noApply {raw : String} (hus : d.utilities.HoldNoApply) (hvs : d.variants.HoldNoApply)
    (hraw : d.variants.NamesNoApply raw) : d.Gives (fun n => n.isApply → False) raw := by
  refine gives_of_candidates isOfHead_noApply (fun _ _ _ _ => nofun) ?_ ?_
  · intro c _ ns order hns
    have hentry {name : String} {kind : UtilityKind}
        (h : d.utilities.generate? d.theme name kind c = some (ns, order)) : NoApply ns := by
      obtain ⟨e, he, hnodes⟩ := Utilities.exists_of_generate h
      exact (hus e he).nodes hnodes
    rw [generate?.eq_def] at hns
    split at hns
    · exact hentry hns
    · exact hentry hns
    · cases hns
      exact appliesOnly_plain (p := fun _ => False)
    · obtain ⟨alpha, -, hns⟩ := Option.bind_eq_some_iff.1 hns
      cases hns
      exact appliesOnly_plain (p := fun _ => False)
  · intro c hc v hv
    obtain ⟨-, -, -, hvariants⟩ := of_mem_readCandidates hc
    obtain ⟨text, htext, hv⟩ := hvariants v hv
    exact hvs.keeps (p := fun _ => False) (hraw text htext v hv)

/-- Applying class names leaves what is applied. -/
theorem noApply_applyEach_iff (h : d.applyEach ns = .ok ms) :
    NoApply ms ↔ ∀ n ∈ visited (!·.isApply) ns, d.Applies NoApply n := by
  refine (forall_nodes_applyEach isOfHead_noApply h).trans (forall₂_congr fun n _ => ?_)
  cases happly : n.isApply with
  | true => simp [Applies, happly, NoApply, AppliesOnly]
  | false => simp [Applies, happly]

theorem noApply_applyEach (hus : d.utilities.HoldNoApply) (hvs : d.variants.HoldNoApply)
    (hns : AppliesOnly d.variants.ListsNoApply ns) (h : d.applyEach ns = .ok ms) : NoApply ms := by
  refine (noApply_applyEach_iff h).2 fun n hn happly new hnew => ?_
  have hlist := hns n ((visited_sublist _ _).subset hn) happly
  exact forall_nodes_apply isOfHead_noApply (fun _ _ _ _ => nofun)
    (fun raw hraw => gives_noApply hus hvs (hlist raw hraw)) hnew

/-- What is left to apply when variant blocks in rules have been expanded was written. -/
theorem appliesOnly_expandInRule (hvs : d.variants.HoldNoApply)
    (hns : ∀ n ∈ allNodes ns, d.variants.WritesNoApply n) (h : d.expandInRule ns = .ok ms) :
    AppliesOnly d.variants.ListsNoApply ms :=
  forall_nodes_expandInRule isOfHead_isApply (fun n hn => (hns n hn).1)
    (fun n hn hblock v hv => hvs.keeps ((hns n hn).2 hblock v hv)) h

theorem appliesOnly_expandVariants (hvs : d.variants.HoldNoApply)
    (hns : ∀ n ∈ allNodes ns, d.variants.WritesNoApply n) (h : expandVariants d ns = .ok ms) :
    AppliesOnly d.variants.ListsNoApply ms :=
  forall_nodes_expandVariants isOfHead_isApply (fun n hn => (hns n hn).1)
    (fun n hn hblock v hv => hvs.keeps ((hns n hn).2 hblock v hv)) h

/-- The utilities that a stylesheet declares bring no `@apply` into a system. -/
theorem holdNoApply_declareUtilities {d' : DesignSystem} (hus : d.utilities.HoldNoApply)
    (hvs : d.variants.HoldNoApply) (hns : ∀ n ∈ allNodes ns, d.variants.WritesNoApply n)
    (h : d.declareUtilities ns = .ok d') : d'.utilities.HoldNoApply := by
  refine (declareUtilities_invariant hus ?_ h).2.2
  rintro n hn d₁ applied ⟨root, r⟩ - hvariants hus₁
    ⟨params, source, expanded, hdeclares, hexpanded, happlied, hbody, hread⟩
  have hsource : ∀ m ∈ allNodes source, d.variants.WritesNoApply m := by
    rw [← children_of_utilityDeclaration? hdeclares]
    exact fun m hm => hns m ((allNodes_children_sublist (mem_allNodes_of_mem hn)).subset hm)
  rw [← hvariants] at hvs hsource
  have hnone : NoApply r.body := (noApply_evaluateEach hbody).2
    (noApply_applyEach hus₁ hvs (appliesOnly_expandInRule hvs hsource hexpanded) happlied)
  have hrecipe : r.HoldsNoApply := by
    rcases eq_of_readUtility hread with hr | hr <;> exact hr ▸ hnone
  exact List.forall_mem_append.2 ⟨hus₁, List.forall_mem_singleton.2 hrecipe⟩

end DesignSystem

end UtilityCss
