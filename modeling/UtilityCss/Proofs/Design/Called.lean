import UtilityCss.Proofs.Design.Expanded
import UtilityCss.Proofs.Text.Words
import UtilityCss.Proofs.Utility.Called
import UtilityCss.Proofs.Variant.Slot

/-!
# Calls in what is expanded

The functions of a stylesheet and of the bodies of its utilities are evaluated when names and blocks in
them have been expanded. A variant keeps the calls that it is declared with. Where the theme, the
variants and the class names have none and those of utilities are about the value, none is brought in.
-/

namespace UtilityCss

/-- Whether no value and no parameters hold a closed call of a function. -/
def NoCall (ns : List Node) : Prop := TextsHold (¬ HoldsCall ·) ns

/-- Whether a text is evaluated to one of a kind. -/
def Theme.EvaluatesTo (t : Theme) (Q : String → Prop) (text : String) : Prop :=
  ∃ value, t.evaluate text = .ok value ∧ Q value

section Evaluate

variable {Q : String → Prop} {n m : Node} {ns ms : List Node} {t : Theme} {text value : String}

theorem noCall_of_opensNone (h : TextsHold OpensNone ns) : NoCall ns :=
  h.imp fun _ hopens => hopens.not_holdsCall

private theorem Theme.evaluatesTo_iff (h : t.evaluate text = .ok value) :
    t.EvaluatesTo Q text ↔ Q value := by
  constructor
  · rintro ⟨value', h', hvalue⟩
    obtain rfl := Except.ok.inj (h.symm.trans h')
    exact hvalue
  · exact fun hvalue => ⟨value, h, hvalue⟩

private theorem Node.texts_evaluate (h : n.evaluate t = .ok m) :
    (∀ text ∈ m.texts, Q text) ↔ ∀ text ∈ n.texts, t.EvaluatesTo Q text := by
  have hone {before after : String} (h : t.evaluate before = .ok after) :
      (∀ text ∈ [after], Q text) ↔ ∀ text ∈ [before], t.EvaluatesTo Q text := by
    simp only [List.forall_mem_singleton, Theme.evaluatesTo_iff h]
  cases n with
  | rule =>
    obtain ⟨ns, -, rfl⟩ := map_eq_ok.1 h
    exact iff_of_true (List.forall_mem_nil _) (List.forall_mem_nil _)
  | atRule =>
    rw [Node.evaluate] at h
    obtain ⟨params, hparams, h⟩ := bind_eq_ok.1 h
    obtain ⟨ns, -, h⟩ := bind_eq_ok.1 h
    cases h
    exact hone hparams
  | statement =>
    obtain ⟨params, hparams, rfl⟩ := map_eq_ok.1 h
    exact hone hparams
  | decl =>
    obtain ⟨value, hvalue, rfl⟩ := map_eq_ok.1 h
    exact hone hvalue
  | comment =>
    cases h
    exact iff_of_true (List.forall_mem_nil _) (List.forall_mem_nil _)

/-- Every value and all parameters are evaluated. -/
theorem textsHold_evaluateEach (h : evaluateEach t ns = .ok ms) :
    TextsHold Q ms ↔ TextsHold (t.EvaluatesTo Q) ns := by
  induction ns using forest_induction generalizing ms with
  | nil =>
    cases h
    exact ⟨fun _ => textsHold_nil, fun _ => textsHold_nil⟩
  | cons n ns ihn ih =>
    obtain ⟨m, rest, hm, hrest, rfl⟩ := evaluateEach_cons h
    obtain ⟨-, -, -, hinner⟩ := evaluate_cases hm
    rw [textsHold_cons, textsHold_cons, Node.texts_evaluate hm, ihn hinner, ih hrest]

/-- Flat texts are evaluated to ones without calls. -/
theorem opensNone_evaluateEach (ht : t.OpensNone) (hns : TextsHold IsFlatText ns)
    (h : evaluateEach t ns = .ok ms) : TextsHold OpensNone ms := by
  have hevaluated : TextsHold (t.EvaluatesTo fun _ => True) ns :=
    (textsHold_evaluateEach h).1 fun _ _ _ _ => trivial
  refine (textsHold_evaluateEach h).2 fun n hn text htext => ?_
  obtain ⟨value, hvalue, -⟩ := hevaluated n hn text htext
  exact ⟨value, hvalue, Theme.opensNone_evaluate ht (hns n hn text htext) hvalue⟩

end Evaluate

section Texts

variable {s name params : String} {p : String × String} {t : Theme}

theorem OpensNone.isFlatText (h : OpensNone s) : IsFlatText s := by
  have hflat : Chars.isFlat functionNames functionNames [] (s.toList ++ []) :=
    Chars.isFlat_append h rfl (by rw [Chars.isFlat])
  rwa [List.append_nil] at hflat

theorem Theme.IsCallFree.opensNone (h : t.IsCallFree) : t.OpensNone :=
  fun e he => ⟨(h e he).1.opensNone, (h e he).2.opensNone⟩

theorem IsCallFree.negateCondition (h : IsCallFree params) : IsCallFree (negateCondition name params) := by
  have hwhole : IsCallFree ("not " ++ params) := by
    have hsurround := textLaws_isCallFree.surround h (by decide : Fits ["not ", ""])
    rwa [String.append_empty] at hsurround
  rw [UtilityCss.negateCondition]
  split
  · next rest hrest =>
    refine h.of_isWithin (isWithin_of_eq (u := "not ") (v := "") ?_)
    rw [String.append_empty, Text.afterLead?_eq_some_iff.1 hrest]
  · dsimp only
    split
    · split
      · next containerName query hcut =>
        obtain ⟨⟨a, b⟩, hchars, hpair⟩ := Option.map_eq_some_iff.1 hcut
        obtain ⟨rfl, rfl⟩ := Prod.mk.inj hpair
        obtain ⟨-, c, -, happend⟩ := Chars.cutAt_eq_some_iff.1 hchars
        rw [IsCallFree, happend] at h
        have hname : IsCallFree (String.ofList a) := by
          rw [IsCallFree, String.toList_ofList]
          exact h.of_infix (List.prefix_append a _).isInfix
        have hquery : IsCallFree (String.ofList b) := by
          rw [IsCallFree, String.toList_ofList]
          exact h.of_infix ((List.suffix_cons c b).trans (List.suffix_append a _)).isInfix
        exact textLaws_isCallFree.join hname hquery (by decide)
      · exact hwhole
    · exact hwhole

theorem IsCallFree.atHead (h : IsCallFree s) (hp : p ∈ Node.atHead? s) : IsCallFree p.2 := by
  rw [Option.mem_def, Node.atHead?] at hp
  split at hp
  · next u hu =>
    dsimp only at hp
    split at hp
    · cases hp
    · cases hp
      have hdrop := (isInfix_trim (u.drop (u.takeWhile fun c => !isBlank c && c != '(').length)).trans
        ((List.drop_suffix _ u).trans (List.suffix_cons '@' u)).isInfix
      rw [IsCallFree, String.toList_ofList]
      exact Chars.IsCallFree.of_infix h (hdrop.trans (hu ▸ isInfix_trim s.toList))
  · cases hp

end Texts

def VariantRule.HoldsNoCall : VariantRule → Prop
  | selectors list => ∀ text ∈ list, Text.startsWith text "@" → ∀ p ∈ Node.atHead? text, IsCallFree p.2
  | body nodes => TextsHold IsCallFree nodes
  | block _ params => IsCallFree params
  | breakpoint operator | container operator => IsTame operator
  | _ => True

instance : DecidablePred VariantRule.HoldsNoCall
  | .selectors list => inferInstanceAs (Decidable
    (∀ text ∈ list, Text.startsWith text "@" = true → ∀ p ∈ Node.atHead? text, IsCallFree p.2))
  | .body nodes => inferInstanceAs (Decidable (TextsHold IsCallFree nodes))
  | .block _ params => inferInstanceAs (Decidable (IsCallFree params))
  | .breakpoint operator | .container operator => inferInstanceAs (Decidable (IsTame operator))
  | .content _ | .directChildren | .aria | .data | .nth _ | .supports | .negation | .marker _ _
  | .has | .within => inferInstanceAs (Decidable True)

def Variant.HoldsNoCall : Variant → Prop
  | static _ => True
  | functional _ value modifier =>
    (∀ a ∈ value, a.Holds IsCallFree) ∧ ∀ a ∈ modifier, a.Holds IsCallFree
  | compound _ _ inner => inner.HoldsNoCall
  | arbitrary selector _ => IsCallFree selector

def Variants.HoldNoCall (vs : Variants) : Prop := vs.AllRules fun _ rule => rule.HoldsNoCall

instance : DecidablePred Variants.HoldNoCall :=
  fun vs => inferInstanceAs (Decidable (∀ e ∈ vs.entries, e.rule.HoldsNoCall))

/-- Whether a design system brings in no call, apart from those in the class names. -/
structure DesignSystem.HoldsNoCall (d : DesignSystem) : Prop where
  theme : d.theme.IsCallFree
  variantsTheme : d.variants.theme = d.theme
  utilities : d.utilities.HoldNoCall
  variants : d.variants.HoldNoCall

section Wrap

/- What is asked of a node without what is inside it, and holds of nodes without calls. -/
variable {P : Node → Prop} (hP : IsOfHead P) (hfree : ∀ n, (∀ text ∈ n.texts, IsCallFree text) → P n)
  {t : Theme} {value modifier : Option Argument} {r : VariantRule} {vs : Variants} {v : Variant}
  {n n' : Node} {ns ms : List Node} {raw : String}

theorem textsHold_change (hn : TextsHold IsCallFree [n]) (h : r.change modifier n = some n') :
    TextsHold IsCallFree [n'] := by
  obtain ⟨hn, hinner⟩ := textsHold_singleton.1 hn
  cases VariantRule.changes_of_change h with
  | rule => exact textsHold_singleton.2 ⟨nofun, hinner⟩
  | atRule =>
    exact textsHold_singleton.2
      ⟨List.forall_mem_singleton.2 (hn _ List.mem_cons_self).negateCondition, hinner⟩
  | statement =>
    exact textsHold_singleton.2
      ⟨List.forall_mem_singleton.2 (hn _ List.mem_cons_self).negateCondition, textsHold_nil⟩

include hP hfree

theorem VariantRule.HoldsNoCall.wrap (hr : r.HoldsNoCall) (ht : t.IsCallFree)
    (hv : ∀ a ∈ value, a.Holds IsCallFree) (hm : ∀ a ∈ modifier, a.Holds IsCallFree)
    (hns : ∀ n ∈ allNodes ns, P n) (h : r.wrap t value modifier ns = some ms) :
    ∀ m ∈ allNodes ms, P m := by
  have hrule (sel : String) (inner : List Node) : P (.rule sel inner) := hfree _ nofun
  have hatRule {name params : String} (hparams : IsCallFree params) (inner : List Node) :
      P (.atRule name params inner) := hfree _ (List.forall_mem_singleton.2 hparams)
  have hfixed {ks : List Node} (hks : TextsHold IsCallFree ks) : ∀ k ∈ allNodes ks, P k :=
    fun k hk => hfree k (hks k hk)
  have hsize {name size : String} {a : Argument} (ha : a ∈ value)
      (hsize : t.size? name a = some size) : IsCallFree size :=
    holds_size textLaws_isCallFree (fun e he => (ht e he).2) (hv a ha) hsize
  cases VariantRule.wraps_of_wrap h with
  | selectors h =>
    refine (forall_wrapSelectors hP hrule h).2 ⟨fun text htext hat p hp => ?_, hns⟩
    exact hatRule (hr text htext hat p hp) []
  | body nodes =>
    exact (forall_replaceEach hP).2
      ⟨fun n hn _ => hfree n (hr n ((visited_sublist _ _).subset hn)), fun _ => hns⟩
  | block name params => exact forall_allNodes_singleton.2 ⟨hatRule hr ns, hns⟩
  | content selector =>
    refine forall_allNodes_singleton.2 ⟨hrule _ _, forall_allNodes_append.2
      ⟨forall_allNodes_append.2 ⟨hfixed ?_, hns⟩, hfixed ?_⟩⟩
    · decide
    · decide
  | directChildren | aria | data | nth => exact forall_allNodes_singleton.2 ⟨hrule _ _, hns⟩
  | breakpoint ha hfound =>
    have hquery := holds_widthQuery textLaws_isCallFree hr (hsize ha hfound)
    exact forall_allNodes_singleton.2 ⟨hatRule hquery ns, hns⟩
  | container ha hfound =>
    have hquery := holds_widthQuery textLaws_isCallFree hr (hsize ha hfound)
    exact forall_allNodes_singleton.2
      ⟨hatRule (holds_containerQuery textLaws_isCallFree hm hquery) ns, hns⟩
  | supports ha =>
    have hcondition := holds_supportsCondition textLaws_isCallFree (hv _ ha)
    exact forall_allNodes_singleton.2 ⟨hatRule hcondition ns, hns⟩

/-- Variants without calls keep what holds of nodes without calls. -/
theorem Variants.HoldNoCall.keeps (hvs : vs.HoldNoCall) (ht : vs.theme.IsCallFree)
    (hv : v.HoldsNoCall) : vs.Keeps P v := by
  intro ns ms hns h
  refine wrapWithin_induction (K := fun v ns ms => ∀ P : Node → Prop, IsOfHead P →
    (∀ n, (∀ text ∈ n.texts, IsCallFree text) → P n) → v.HoldsNoCall → (∀ n ∈ allNodes ns, P n) →
      ∀ m ∈ allNodes ms, P m) ?_ ?_ ?_ ?_ ?_ h P hP hfree hv hns
  · intro root e ns ms he h P hP hfree _ hns
    exact (hvs.get? he).wrap hP hfree ht (fun a ha => absurd ha (Option.not_mem_none a))
      (fun a ha => absurd ha (Option.not_mem_none a)) hns h
  · intro root value modifier e ns ms he h P hP hfree hv hns
    exact (hvs.get? he).wrap hP hfree ht hv.1 hv.2 hns h
  · intro root modifier inner e wrapped changed ns _ ih hchanged P hP hfree hv hns
    have hinner : TextsHold IsCallFree wrapped := ih _ isOfHead_texts (fun _ h => h) hv nofun
    refine hP.fillEach (fun m hm => hfree m ?_) hns
    refine textsHold_iff_forall_mem.2 (fun n' hn' => ?_) m hm
    obtain ⟨n, hn, hchange⟩ := exists_of_mem_mapM hchanged hn'
    exact textsHold_change (textsHold_iff_forall_mem.1 hinner n hn) hchange
  · intro selector relative ns n _ hn P hP hfree hv hns
    obtain ⟨p, hp, rfl⟩ := Option.map_eq_some_iff.1 hn
    exact forall_allNodes_singleton.2
      ⟨hfree _ (List.forall_mem_singleton.2 (hv.atHead hp)), hns⟩
  · intro selector relative ns _ P hP hfree _ hns
    exact forall_allNodes_singleton.2 ⟨hfree _ nofun, hns⟩

omit hP hfree

theorem Variant.holdsNoCall_of_read? (hraw : IsCallFree raw) (h : vs.read? raw = some v) :
    v.HoldsNoCall := by
  have hargument {a? : Option Argument} (ha : ∀ a ∈ a?, a.Holds (StandsFor raw)) :
      ∀ a ∈ a?, a.Holds IsCallFree :=
    fun a hmem => (ha a hmem).imp fun _ _ hstands => hstands.isCallFree hraw
  refine Variants.readFrom?_induction (P := Variant.HoldsNoCall) ?_ ?_ ?_ ?_
    (List.infix_refl raw.toList) h
  · intro inner v hinner h
    obtain ⟨selector, relative, rfl, -, hselector⟩ := readArbitraryVariant?_cases h
    have hdecoded := (hraw.of_isWithin hinner).decodeArbitrary
    cases hselector with
    | trimmed => exact hdecoded.trim
    | condition => exact textLaws_isCallFree.surround hdecoded.trim (by decide)
  · intro root
    trivial
  · intro root value modifier hvalue hmodifier
    exact ⟨hargument hvalue, hargument hmodifier⟩
  · intro root modifier w _ _ hw
    exact hw

end Wrap

/-- Whether no closed call is in what a declared variant wraps nodes in: in the at-rules of its list, or
in its body outside of the slots. -/
def VariantRule.WritesNoCall : VariantRule → Prop
  | selectors list => ∀ text ∈ list, Text.startsWith text "@" → ∀ p ∈ Node.atHead? text, ¬ HoldsCall p.2
  | body nodes =>
    ∀ n ∈ visited (!·.isAt "slot") nodes, ¬ n.isAt "slot" → ∀ text ∈ n.texts, ¬ HoldsCall text
  | _ => True

section Declared

variable {n : Node} {name : String} {r : VariantRule} {t : Theme} {value modifier : Option Argument}
  {ns ms nodes : List Node}

/-- A body is stored as it is written. -/
theorem Node.DeclaresVariant.body_eq (h : n.DeclaresVariant name (.body nodes)) : nodes = n.children := by
  obtain ⟨params, body?, hdeclares, hread⟩ := h
  obtain ⟨list, hlist⟩ | ⟨_, rfl, heq, -⟩ := Variants.readVariantDeclaration_cases hread
  · cases hlist
  · cases heq
    exact (Node.children_of_directive? hdeclares).symm

/-- A declared variant brings in the calls that it is declared with, which are not evaluated. -/
theorem Node.DeclaresVariant.noCall_wrap_iff (h : n.DeclaresVariant name r)
    (hwrap : r.wrap t value modifier ns = some ms) : NoCall ms ↔ r.WritesNoCall ∧ NoCall ns := by
  have htexts : IsOfHead fun n => ∀ text ∈ n.texts, ¬ HoldsCall text := isOfHead_texts
  obtain ⟨params, body?, -, hread⟩ := h
  obtain ⟨list, rfl⟩ | ⟨nodes, -, rfl, hslot⟩ := Variants.readVariantDeclaration_cases hread
  · refine (forall_wrapSelectors htexts (fun _ _ => nofun) hwrap).trans (and_congr_left' ?_)
    exact forall₄_congr fun text _ _ p => forall_congr' fun _ => List.forall_mem_singleton
  · cases hwrap
    obtain ⟨slot, hmem, hslot⟩ := List.any_eq_true.1 hslot
    have houtermost : ∃ n ∈ UtilityCss.visited (!·.isAt "slot") nodes, n.isAt "slot" :=
      exists_visited_of_mem (p := (·.isAt "slot")) hmem hslot
    refine (forall_replaceEach htexts).trans ?_
    rw [imp_iff_right houtermost]
    rfl

end Declared

namespace DesignSystem

variable {d d' : DesignSystem} {raw : String} {ns ms : List Node}

/-- A class name without calls stands for nodes without calls. -/
theorem HoldsNoCall.gives (hd : d.HoldsNoCall) (hraw : IsCallFree raw) :
    d.Gives (fun n => ∀ text ∈ n.texts, OpensNone text) raw := by
  have hvalues : d.theme.ValuesHold IsCallFree := fun e he => (hd.theme e he).2
  refine gives_of_candidates isOfHead_texts (fun _ _ _ => id) ?_ ?_
  · intro c hc ns order h
    obtain ⟨hform, -⟩ := holds_of_mem_readCandidates hc
    have hfree : c.form.Holds IsCallFree := hform.imp fun _ hstands => hstands.isCallFree hraw
    have hentry {name : String} {kind : UtilityKind}
        (h : d.utilities.generate? d.theme name kind c = some (ns, order)) :
        TextsHold OpensNone ns := by
      obtain ⟨e, he, hnodes⟩ := Utilities.exists_of_generate h
      exact (hd.utilities e he).nodes hd.theme hfree.value hfree.modifier hnodes
    have hplain {name value : String} (hvalue : IsCallFree value) :
        TextsHold OpensNone [.plain name value] :=
      textsHold_singleton.2 ⟨List.forall_mem_singleton.2 hvalue.opensNone, textsHold_nil⟩
    rw [generate?.eq_def] at h
    split at h
    · exact hentry h
    · exact hentry h
    · next hc =>
      rw [hc] at hfree
      cases h
      exact hplain hfree.2.1.2
    · next m hc =>
      rw [hc] at hfree
      obtain ⟨alpha, halpha, h⟩ := Option.bind_eq_some_iff.1 h
      cases h
      have htrim : m.Holds fun s => IsCallFree (Text.trim s) :=
        (hfree.2.2 m rfl).imp fun _ _ hs => hs.trim
      exact hplain (holds_withAlpha textLaws_isCallFree hfree.2.1.2
        (holds_alphaOf textLaws_isCallFree hvalues htrim halpha))
  · intro c hc v hv
    obtain ⟨-, hvariants⟩ := holds_of_mem_readCandidates hc
    obtain ⟨text, hwithin, hread⟩ := hvariants v hv
    exact hd.variants.keeps isOfHead_texts (fun _ h text htext => (h text htext).opensNone)
      (hd.variantsTheme ▸ hd.theme) (Variant.holdsNoCall_of_read? (hraw.of_isWithin hwithin) hread)

end DesignSystem

/-- Whether the calls that a node of a stylesheet is written with are flat ones, and none is in the class
names that it applies and in the variant that it wraps its body in. -/
def Node.WritesFlat (n : Node) : Prop :=
  (∀ text ∈ n.texts, IsFlatText text) ∧ (n.isApply ∨ n.isVariantBlock → IsCallFree n.params)

instance : DecidablePred Node.WritesFlat :=
  fun n => inferInstanceAs (Decidable ((∀ text ∈ n.texts, IsFlatText text) ∧
    (n.isApply = true ∨ n.isVariantBlock = true → IsCallFree n.params)))

section Source

/- What is asked of a node until class names are applied. -/
private def AppliesFlat (n : Node) : Prop :=
  (∀ text ∈ n.texts, IsFlatText text) ∧ (n.isApply → IsCallFree n.params)

private theorem isOfHead_appliesFlat : IsOfHead AppliesFlat := by
  intro n ns
  rw [AppliesFlat, Node.texts_withChildren, Node.isApply_withChildren, Node.params_withChildren]
  rfl

private theorem appliesFlat_of_isCallFree {n : Node} (h : ∀ text ∈ n.texts, IsCallFree text) :
    AppliesFlat n := by
  refine ⟨fun text htext => (h text htext).opensNone.isFlatText, fun happly => ?_⟩
  cases n with
  | atRule => exact h _ List.mem_cons_self
  | statement => exact h _ List.mem_cons_self
  | _ => exact absurd happly Bool.false_ne_true

namespace DesignSystem

variable {d d' : DesignSystem} {raw : String} {ns ms : List Node}

private theorem HoldsNoCall.keeps_block (hd : d.HoldsNoCall)
    (hns : ∀ n ∈ allNodes ns, n.WritesFlat) :
    ∀ n ∈ allNodes ns, n.isVariantBlock → ∀ v ∈ d.variants.read? (Text.trim n.params),
      d.variants.Keeps AppliesFlat v := by
  intro n hn hblock v hv
  have hparams : IsCallFree n.params := (hns n hn).2 (.inr hblock)
  exact hd.variants.keeps isOfHead_appliesFlat (fun _ => appliesFlat_of_isCallFree)
    (hd.variantsTheme ▸ hd.theme) (Variant.holdsNoCall_of_read? hparams.trim hv)

private theorem HoldsNoCall.flat_applyEach (hd : d.HoldsNoCall)
    (hns : ∀ n ∈ allNodes ns, AppliesFlat n)
    (h : d.applyEach ns = .ok ms) : TextsHold IsFlatText ms := by
  refine (forall_nodes_applyEach isOfHead_texts h).2 fun n hn => ?_
  obtain ⟨htexts, hparams⟩ := hns n ((visited_sublist _ _).subset hn)
  split
  · next happly =>
    intro new hnew
    refine forall_nodes_apply isOfHead_texts (fun _ _ _ => id) (fun raw hraw => ?_) hnew
    have hname : IsCallFree raw := (hparams happly).of_isWithin (Text.infix_of_mem_words hraw)
    exact fun cc hcc m hm text htext => (hd.gives hname cc hcc m hm text htext).isFlatText
  · exact htexts

/-- Flat calls stay flat in a rule when names and blocks in it are expanded. -/
theorem HoldsNoCall.flat_expandInRule (hd : d.HoldsNoCall) (hns : ∀ n ∈ allNodes ns, n.WritesFlat)
    {expanded : List Node} (h : d.expandInRule ns = .ok expanded) (happly : d.applyEach expanded = .ok ms) :
    TextsHold IsFlatText ms :=
  hd.flat_applyEach (forall_nodes_expandInRule isOfHead_appliesFlat
    (fun n hn => ⟨(hns n hn).1, fun happly => (hns n hn).2 (.inl happly)⟩) (hd.keeps_block hns) h) happly

theorem HoldsNoCall.flat_expandVariants (hd : d.HoldsNoCall) (hns : ∀ n ∈ allNodes ns, n.WritesFlat)
    {expanded : List Node} (h : expandVariants d ns = .ok expanded)
    (happly : d.applyEach expanded = .ok ms) : TextsHold IsFlatText ms :=
  hd.flat_applyEach (forall_nodes_expandVariants isOfHead_appliesFlat
    (fun n hn => ⟨(hns n hn).1, fun happly => (hns n hn).2 (.inl happly)⟩) (hd.keeps_block hns) h) happly

/-- A utility that is declared with flat calls brings in none, if its calls about the value are apart
from what is around them. -/
theorem HoldsNoCall.declares {n : Node} {applied : List Node} {e : String × Recipe}
    (hd : d.HoldsNoCall) (hn : ∀ m ∈ allNodes n.children, m.WritesFlat) (h : d.Declares n applied e)
    (hask : e.2.AsksApart) : e.2.HoldsNoCall := by
  obtain ⟨root, r⟩ := e
  obtain ⟨params, source, expanded, hdeclares, hexpanded, happlied, hbody, hread⟩ := h
  rw [children_of_utilityDeclaration? hdeclares] at hn
  have hnone : TextsHold OpensNone r.body :=
    opensNone_evaluateEach hd.theme.opensNone (hd.flat_expandInRule hn hexpanded happlied) hbody
  rcases eq_of_readUtility hread with hr | hr
  · dsimp only
    rw [hr]
    exact hnone
  · dsimp only at hask ⊢
    rw [hr] at hask ⊢
    exact ⟨hnone, hask⟩

theorem HoldsNoCall.declareUtilities (hd : d.HoldsNoCall) (hns : ∀ n ∈ allNodes ns, n.WritesFlat)
    (h : d.declareUtilities ns = .ok d') (hasks : ∀ e ∈ d'.utilities.entries, e.2.AsksApart) :
    d'.HoldsNoCall := by
  have hsystem {d₁ : DesignSystem} (htheme : d₁.theme = d.theme) (hvariants : d₁.variants = d.variants)
      (hus : d₁.utilities.HoldNoCall) : d₁.HoldsNoCall :=
    ⟨htheme ▸ hd.theme, by rw [htheme, hvariants, hd.variantsTheme], hus, hvariants ▸ hd.variants⟩
  have hstep (n : Node) (hn : n ∈ ns) (d₁ : DesignSystem) (applied : List Node) (e : String × Recipe)
      (htheme : d₁.theme = d.theme) (hvariants : d₁.variants = d.variants)
      (hus : (∀ e ∈ d₁.utilities.entries, e.2.AsksApart) → d₁.utilities.HoldNoCall)
      (hdeclares : d₁.Declares n applied e)
      (hasks : ∀ e' ∈ (d₁.utilities.add e.1 e.2).entries, e'.2.AsksApart) :
      (d₁.utilities.add e.1 e.2).HoldNoCall := by
    obtain ⟨hasks, hask⟩ := List.forall_mem_append.1 hasks
    have hinner : ∀ m ∈ allNodes n.children, m.WritesFlat := fun m hm =>
      hns m ((allNodes_children_sublist (mem_allNodes_of_mem hn)).subset hm)
    have hrecipe := (hsystem htheme hvariants (hus hasks)).declares hinner hdeclares
      (hask _ List.mem_cons_self)
    exact List.forall_mem_append.2 ⟨hus hasks, List.forall_mem_singleton.2 hrecipe⟩
  obtain ⟨htheme, hvariants, hus⟩ := declareUtilities_invariant
    (I := fun us => (∀ e ∈ us.entries, e.2.AsksApart) → us.HoldNoCall) (fun _ => hd.utilities) hstep h
  exact hsystem htheme hvariants (hus hasks)

end DesignSystem

end Source

end UtilityCss
