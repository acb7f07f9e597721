import UtilityCss.Proofs.Compiler.Applied
import UtilityCss.Proofs.Design.Called

/-!
# Calls of functions in the output

Functions are evaluated in the stylesheet and in the bodies of utilities that it declares. Values and
keyframes of the theme and the bodies of variants are stored before that and stay as they are written,
and a call that stands in another one, or in the value of the theme that another one stands for, is not
evaluated with it. A call in the output comes from one of these, or from a class name.
-/

namespace UtilityCss

section Marks

variable {Q : String → Prop} {n : Node} {ns : List Node}

theorem not_mem_of_isUtilitiesMark (h : n.isUtilitiesMark) : ∀ text ∈ n.texts, '(' ∉ text.toList := by
  cases n with
  | statement name params =>
    rw [Node.isUtilitiesMark, Bool.and_eq_true, beq_iff_eq, beq_iff_eq] at h
    refine List.forall_mem_singleton.2 fun hmem => ?_
    obtain ⟨u, hu, hs⟩ := Chars.exists_trimStart params.toList
    obtain ⟨v, hv, ht⟩ := Chars.exists_trimEnd (Chars.trimStart params.toList)
    have htrim : Chars.trim params.toList = "utilities".toList := by
      rw [← h.2, Text.trim, String.toList_ofList]
    rw [hs, ht, List.mem_append, List.mem_append] at hmem
    rcases hmem with hmem | hmem | hmem
    · exact absurd (hu _ hmem) (by decide)
    · rw [show Chars.trimEnd (Chars.trimStart params.toList) = _ from htrim] at hmem
      exact absurd hmem (by decide)
    · exact absurd (hv _ hmem) (by decide)
  | _ => exact absurd h Bool.false_ne_true

theorem textsHold_keepFirst (hQ : ∀ text : String, '(' ∉ text.toList → Q text) :
    TextsHold Q (keepFirst Node.isUtilitiesMark ns) ↔ TextsHold Q ns :=
  forall_keepEach isOfHead_texts
    (fun _ hmark text htext => hQ text (not_mem_of_isUtilitiesMark hmark text htext))
    (fun _ => Node.children_of_isUtilitiesMark) (fun _ _ => rfl) false

end Marks

section Property

variable {p : String × PropertyDefinition} {definition : PropertyDefinition} {n : Node}
  {ns : List Node} {registry : PropertyRegistry}

def PropertyDefinition.OpensNone (d : PropertyDefinition) : Prop :=
  UtilityCss.OpensNone d.grammar ∧ ∀ s ∈ d.initial, UtilityCss.OpensNone s

theorem PropertyDefinition.OpensNone.read (h : definition.OpensNone)
    (hn : ∀ text ∈ n.texts, UtilityCss.OpensNone text) : (definition.read n).OpensNone := by
  unfold PropertyDefinition.read
  split
  · exact ⟨hn _ List.mem_cons_self, h.2⟩
  · exact h
  · refine ⟨h.1, fun s hs => ?_⟩
    obtain rfl := Option.some.inj hs
    exact hn _ List.mem_cons_self
  · exact h

private theorem PropertyDefinition.opensNone_ofNodes (h : TextsHold UtilityCss.OpensNone ns) :
    (PropertyDefinition.ofNodes ns).OpensNone :=
  List.foldlRecOn ns PropertyDefinition.read ⟨by decide, nofun⟩ fun _ hd n hn =>
    hd.read (h n (mem_allNodes_of_mem hn))

private theorem eq_of_property? (h : n.property? = some p) :
    p = (Text.trim n.params, .ofNodes n.children) := by
  unfold Node.property? at h
  dsimp only at h
  obtain ⟨-, h⟩ := Option.ite_none_right_eq_some.1 h
  obtain ⟨-, h⟩ := Option.ite_none_right_eq_some.1 h
  rw [← Option.some.inj h]
  cases n <;> rfl

private theorem opensNone_definedProperties (h : TextsHold OpensNone ns)
    (hp : p ∈ definedProperties ns) :
    OpensNone p.1 ∧ p.2.OpensNone := by
  obtain ⟨n, hn, hproperty⟩ := List.mem_filterMap.1 hp
  have hall := (visited_sublist _ _).subset hn
  have htexts := h n hall
  have hchildren : TextsHold OpensNone n.children :=
    fun m hm => h m ((allNodes_children_sublist hall).subset hm)
  obtain rfl := eq_of_property? hproperty
  refine ⟨OpensNone.trim ?_, PropertyDefinition.opensNone_ofNodes hchildren⟩
  cases n with
  | atRule => exact htexts _ List.mem_cons_self
  | statement => exact htexts _ List.mem_cons_self
  | _ => exact (by decide : OpensNone "")

theorem subset_register (ps : List (String × PropertyDefinition)) :
    ps.foldl PropertyRegistry.register [] ⊆ ps := by
  refine List.foldlRecOn (motive := (· ⊆ ps)) ps PropertyRegistry.register (List.nil_subset ps)
    fun registry hregistry p hp q hq => ?_
  rw [PropertyRegistry.register] at hq
  split at hq
  · exact hregistry hq
  · rcases List.mem_append.1 hq with hq | hq
    · exact hregistry hq
    · rwa [List.mem_singleton.1 hq]

theorem textsHold_decls (hns : ∀ n ∈ ns, n.isDecl ∧ ∀ text ∈ n.texts, OpensNone text) :
    TextsHold OpensNone ns := by
  refine textsHold_iff_forall_mem.2 fun n hn => ?_
  obtain ⟨hdecl, htexts⟩ := hns n hn
  cases n with
  | decl => exact textsHold_singleton.2 ⟨htexts, textsHold_nil⟩
  | _ => exact absurd hdecl Bool.false_ne_true

private theorem opensNone_definition {name : String} (hname : OpensNone name)
    (h : definition.OpensNone) :
    TextsHold OpensNone [definition.node name] := by
  refine textsHold_singleton.2 ⟨List.forall_mem_singleton.2 hname, textsHold_decls fun n hn => ?_⟩
  rcases List.mem_append.1 hn with hn | hn
  · rcases List.mem_cons.1 hn with rfl | hn
    · exact ⟨rfl, List.forall_mem_singleton.2 h.1⟩
    · obtain rfl := List.mem_singleton.1 hn
      refine ⟨rfl, List.forall_mem_singleton.2 ?_⟩
      split <;> decide
  · obtain ⟨s, hs, rfl⟩ := Option.map_eq_some_iff.1 (Option.mem_toList.1 hn)
    exact ⟨rfl, List.forall_mem_singleton.2 (h.2 s hs)⟩

theorem opensNone_propertyNodes (h : ∀ p ∈ registry, OpensNone p.1 ∧ p.2.OpensNone) :
    TextsHold OpensNone (propertyNodes registry) := by
  rw [propertyNodes]
  split
  · exact textsHold_nil
  have hquery : OpensNone propertyFallbackQuery := by decide +kernel
  refine textsHold_cons.2
    ⟨List.forall_mem_singleton.2 hquery, ?_, textsHold_iff_forall_mem.2 fun n hn => ?_⟩
  · have hbase : OpensNone "base" := by decide
    refine textsHold_singleton.2 ⟨List.forall_mem_singleton.2 hbase,
      textsHold_singleton.2 ⟨List.forall_mem_nil _, textsHold_decls fun n hn => ?_⟩⟩
    obtain ⟨p, hp, rfl⟩ := List.mem_map.1 hn
    refine ⟨rfl, List.forall_mem_singleton.2 ?_⟩
    cases hinitial : p.2.initial with
    | none => exact (by decide : OpensNone "initial")
    | some s => exact (h p hp).2.2 s hinitial
  · obtain ⟨p, hp, rfl⟩ := List.mem_map.1 hn
    exact opensNone_definition (h p hp).1 (h p hp).2

end Property

namespace DesignSystem

variable {d : DesignSystem} {applied : List Node} {e : String × Recipe}

theorem Declares.noCall_iff {n : Node} (h : d.Declares n applied e) :
    NoCall e.2.body ↔ TextsHold (d.theme.EvaluatesTo (¬ HoldsCall ·)) applied := by
  obtain ⟨-, -, -, -, -, -, hbody, -⟩ := h
  exact textsHold_evaluateEach hbody

end DesignSystem

namespace Compiler

variable {css base : String} {r : Resolver} {c : Compiler} {names : List String} {ns : List Node}

/-- Where the parts of the output hold calls. -/
theorem noCall_output_iff :
    NoCall (c.output names) ↔
      KeptHold (fun n => ¬ n.isThemeMark → ∀ text ∈ n.texts, ¬ HoldsCall text) c.nodes ∧
      (c.PlacesRules → ∀ cc ∈ c.compiled names,
        KeptHold (fun n => ¬ n.isThemeMark → ∀ text ∈ n.texts, ¬ HoldsCall text) cc.nodes) ∧
      (∀ e ∈ c.declaredEntries (c.flatNodes names), ¬ HoldsCall e.value) ∧
      NoCall (c.keyframeNodes (c.flatNodes names)) ∧ NoCall (propertyNodes (c.registry names)) := by
  have htexts : IsOfHead fun n => ∀ text ∈ n.texts, ¬ HoldsCall text := isOfHead_texts
  have hkeep : IsOfHead fun n => ¬ n.isThemeMark → ∀ text ∈ n.texts, ¬ HoldsCall text :=
    .imp (.not Node.isThemeMark_withChildren) htexts
  have hutilities (n : Node) : (¬ n.isUtilitiesMark → ¬ n.isThemeMark →
      ∀ text ∈ n.texts, ¬ HoldsCall text) ↔
        (¬ n.isThemeMark → ∀ text ∈ n.texts, ¬ HoldsCall text) := by
    refine ⟨fun h htheme text htext hcall => h (fun hmark => ?_) htheme text htext hcall, fun h _ => h⟩
    exact (opensNone_of_notMem (not_mem_of_isUtilitiesMark hmark text htext)).not_holdsCall hcall
  refine (forall_output_iff htexts fun _ _ => nofun).trans ?_
  rw [forall_assembled hkeep fun _ _ _ => nofun, keptHold_congr hutilities, and_assoc]
  refine and_congr_right' (and_congr_right' (and_congr_left' ?_))
  exact forall₂_congr fun e _ => List.forall_mem_singleton

private theorem textsHold_assembled {Q : String → Prop} (hnodes : TextsHold Q c.nodes)
    (hcompiled : ∀ cc ∈ c.compiled names, TextsHold Q cc.nodes) : TextsHold Q (c.assembled names) := by
  have hrules : TextsHold Q (c.utilityRules names) := by
    refine textsHold_iff_forall_mem.2 fun n hn => ?_
    obtain ⟨cc, hcc, rfl⟩ := List.mem_map.1 hn
    exact textsHold_singleton.2 ⟨nofun, hcompiled cc hcc⟩
  intro m hm
  rcases mem_placeAtFirst hm with ⟨m', hm', hhead⟩ | hm
  · rw [← m.texts_head, ← hhead, m'.texts_head]
    exact hnodes m' hm'
  · exact hrules m hm

/-- The output holds no call if none is begun in the theme, the compiled stylesheet and the rules for
class names and there is none in the theme's keyframes. -/
theorem noCall_output_of_opensNone (ht : c.system.theme.OpensNone) (hnodes : TextsHold OpensNone c.nodes)
    (hcompiled : ∀ cc ∈ c.compiled names, TextsHold OpensNone cc.nodes)
    (hkeyframes : NoCall (c.keyframeNodes (c.flatNodes names))) : NoCall (c.output names) := by
  have hkept {ns : List Node} (h : TextsHold OpensNone ns) :
      KeptHold (fun n => ¬ n.isThemeMark → ∀ text ∈ n.texts, ¬ HoldsCall text) ns :=
    fun n hn _ _ => noCall_of_opensNone h n ((visited_sublist _ _).subset hn)
  have hdefinitions : ∀ p ∈ c.registry names, OpensNone p.1 ∧ p.2.OpensNone := fun p hp =>
    opensNone_definedProperties (textsHold_assembled hnodes hcompiled) (subset_register _ hp)
  refine noCall_output_iff.2 ⟨hkept hnodes, fun _ cc hcc => hkept (hcompiled cc hcc), fun e he => ?_,
    hkeyframes, noCall_of_opensNone (opensNone_propertyNodes hdefinitions)⟩
  exact (ht e (Theme.mem_of_get? (mem_declaredEntries.1 he).1).1).2.not_holdsCall

theorem exists_applied (h : compile css base r = .ok c) :
    ∃ ns expanded applied, authored css base r = .ok ns ∧
      expandVariants c.system ns = .ok expanded ∧ c.system.applyEach expanded = .ok applied ∧
      (NoCall c.nodes ↔ TextsHold (c.system.theme.EvaluatesTo (¬ HoldsCall ·)) applied) ∧
      (c.system.theme.OpensNone → TextsHold IsFlatText applied → TextsHold OpensNone c.nodes) := by
  obtain ⟨ns, ms, hns, hms, hnodes⟩ := exists_authored h
  obtain ⟨expanded, hexpanded, hms⟩ := bind_eq_ok.1 hms
  obtain ⟨applied, happlied, hms⟩ := bind_eq_ok.1 hms
  refine ⟨ns, expanded, applied, hns, hexpanded, happlied, ?_, fun ht hflat => ?_⟩
  · rw [hnodes, NoCall, textsHold_keepFirst fun text hmem => (opensNone_of_notMem hmem).not_holdsCall]
    exact textsHold_evaluateEach hms
  · rw [hnodes, textsHold_keepFirst fun text => opensNone_of_notMem]
    exact opensNone_evaluateEach ht hflat hms

/-- Without plugins, a utility is built in or was evaluated when it was declared. -/
theorem declares_of_mem_utilities (h : compile css base r = .ok c)
    (hplugins : LoadsNoPlugin css base r) :
    ∃ ns, scanned css base r = .ok ns ∧ ∀ e ∈ c.system.utilities.entries,
      e ∈ Utilities.builtin.entries ∨ ∃ n ∈ ns, ∃ (d : DesignSystem) (applied : List Node),
        d.theme = c.system.theme ∧ d.Declares n applied e := by
  obtain ⟨ns, events, dark, d, ms, hscanned, hvariants, hutilities, -, -⟩ :=
    exists_scanned h hplugins
  obtain ⟨htheme, -⟩ := DesignSystem.theme_and_variants_declareUtilities hutilities
  refine ⟨ns, hscanned, fun e he => ?_⟩
  rcases DesignSystem.declares_of_mem_declareUtilities hutilities e he with
    he | ⟨n, hn, d₁, applied, htheme₁, hdeclares⟩
  · rw [(DesignSystem.stores_declareVariants hvariants).2.1] at he
    exact .inl he
  · exact .inr ⟨n, (List.mem_filter.1 hn).1, d₁, applied, htheme₁.trans htheme.symm, hdeclares⟩

theorem declaresVariant_of_mem_variants (h : compile css base r = .ok c)
    (hplugins : LoadsNoPlugin css base r) :
    ∃ ns dark, scanned css base r = .ok ns ∧ ∀ e ∈ c.system.variants.entries,
      (e.name, e.rule) ∈ Variants.builtinRules c.system.theme dark ∨
        ∃ n ∈ ns, n.DeclaresVariant e.name e.rule := by
  obtain ⟨ns, events, dark, d, ms, hscanned, hvariants, hutilities, -, -⟩ :=
    exists_scanned h hplugins
  obtain ⟨htheme, hsame⟩ := DesignSystem.theme_and_variants_declareUtilities hutilities
  have htheme' := (DesignSystem.stores_declareVariants hvariants).1
  let IsKnown (name : String) (rule : VariantRule) : Prop :=
    (name, rule) ∈ Variants.builtinRules (Theme.ofEvents events) dark ∨
      ∃ n ∈ ns, n.DeclaresVariant name rule
  have hbuiltin : (DesignSystem.builtin (Theme.ofEvents events) dark).variants.AllRules IsKnown := by
    rw [DesignSystem.variants_builtin]
    exact Variants.allRules_builtin fun p hp => .inl hp
  have hrules : d.variants.AllRules IsKnown := DesignSystem.allRules_declareVariants hbuiltin
    (fun n hn name rule hdeclares => .inr ⟨n, hn, hdeclares⟩) hvariants
  have hsystem : c.system.theme = Theme.ofEvents events := htheme.trans htheme'
  refine ⟨ns, dark, hscanned, fun e he => ?_⟩
  rw [hsystem]
  rw [hsame] at he
  exact hrules e he

/-- Without plugins, no call gets into the design system and the stylesheet if the stores for the theme
and the variants have none, the calls in the source are flat and those of utilities about the value are
apart from what is around them. -/
theorem noCall_of_declared (h : compile css base r = .ok c) (hplugins : LoadsNoPlugin css base r)
    (ht : c.system.theme.IsCallFree) (hvs : c.system.variants.HoldNoCall)
    (hasks : ∀ e ∈ c.system.utilities.entries, e.2.AsksApart)
    (hns : ∀ ns, scanned css base r = .ok ns → ∀ n ∈ allNodes ns, n.WritesFlat) :
    c.system.HoldsNoCall ∧ TextsHold OpensNone c.nodes := by
  obtain ⟨ns, events, dark, d, ms, hscanned, hvariants, hutilities, hms, hnodes⟩ :=
    exists_scanned h hplugins
  have hwritten := hns ns hscanned
  obtain ⟨htheme, hsame⟩ := DesignSystem.theme_and_variants_declareUtilities hutilities
  obtain ⟨htheme', hbuiltin, hvtheme⟩ := DesignSystem.stores_declareVariants hvariants
  have hd : d.HoldsNoCall := by
    refine ⟨htheme ▸ ht, ?_, ?_, hsame ▸ hvs⟩
    · rw [hvtheme, htheme']
      exact Variants.theme_builtin _ dark
    rw [hbuiltin]
    exact fun e he => (isSound_builtinUtilities e he).holdsNoCall
  have hsystem : c.system.HoldsNoCall := hd.declareUtilities
    (fun n hn => hwritten n ((allNodes_sublist List.filter_sublist).subset hn)) hutilities hasks
  refine ⟨hsystem, ?_⟩
  obtain ⟨expanded, hexpanded, hms⟩ := bind_eq_ok.1 hms
  obtain ⟨applied, happlied, hms⟩ := bind_eq_ok.1 hms
  have hflat : TextsHold IsFlatText applied := hsystem.flat_expandVariants
    (fun n hn => hwritten n
      ((allNodes_sublist (List.filter_sublist.trans List.filter_sublist)).subset hn))
    hexpanded happlied
  rw [hnodes, textsHold_keepFirst fun text => opensNone_of_notMem]
  exact opensNone_evaluateEach ht.opensNone hflat hms

private theorem opensNone_compiled (hsystem : c.system.HoldsNoCall)
    (hnames : ∀ raw ∈ names, IsCallFree raw) :
    ∀ cc ∈ c.compiled names, TextsHold OpensNone cc.nodes := by
  intro cc hcc
  obtain ⟨raw, hraw, hcompile⟩ := List.mem_filterMap.1 ((sortBy_perm _).subset hcc)
  obtain ⟨-, name, hname, rfl⟩ := mem_classNames.1 hraw
  exact hsystem.gives (hnames name hname).trim cc hcompile

private theorem noCall_keyframeNodes (h : ∀ k ∈ c.system.theme.keyframes, NoCall [k.node]) :
    NoCall (c.keyframeNodes ns) := by
  refine textsHold_iff_forall_mem.2 fun n hn => ?_
  obtain ⟨k, hk, rfl⟩ := List.mem_map.1 hn
  exact h k (List.mem_filter.1 hk).1

/-- A call in the output was left by the evaluation of the stylesheet, is in what a class name stands
for, in a value or in keyframes of the theme, or in a definition of a property. The functions in the
bodies of utilities are evaluated, too, but not those in variants, which wrap nodes in what they are
declared with. There is no call at all if no plugin is loaded, none is in the theme, in variants and in
the class names, and those in the stylesheet stand in no other ones and are separated from what
follows. -/
theorem noCall_output (h : compile css base r = .ok c) (names : List String) :
    (∃ ns expanded applied, authored css base r = .ok ns ∧
      expandVariants c.system ns = .ok expanded ∧ c.system.applyEach expanded = .ok applied ∧
      (NoCall c.nodes ↔ TextsHold (c.system.theme.EvaluatesTo (¬ HoldsCall ·)) applied) ∧
      (c.system.theme.OpensNone → TextsHold IsFlatText applied → TextsHold OpensNone c.nodes)) ∧
    (LoadsNoPlugin css base r → ∃ ns dark, scanned css base r = .ok ns ∧
      (∀ e ∈ c.system.utilities.entries, e ∈ Utilities.builtin.entries ∨
        ∃ n ∈ ns, ∃ (d : DesignSystem) (applied : List Node),
          d.theme = c.system.theme ∧ d.Declares n applied e ∧
          (NoCall e.2.body ↔ TextsHold (d.theme.EvaluatesTo (¬ HoldsCall ·)) applied)) ∧
      ∀ e ∈ c.system.variants.entries,
        (e.name, e.rule) ∈ Variants.builtinRules c.system.theme dark ∨
          ∃ n ∈ ns, n.DeclaresVariant e.name e.rule ∧
            (∀ nodes, e.rule = .body nodes → nodes = n.children) ∧
            ∀ wrapped ms, e.rule.wrap c.system.theme none none wrapped = some ms →
              (NoCall ms ↔ e.rule.WritesNoCall ∧ NoCall wrapped)) ∧
    (NoCall (c.output names) ↔
      KeptHold (fun n => ¬ n.isThemeMark → ∀ text ∈ n.texts, ¬ HoldsCall text) c.nodes ∧
      (c.PlacesRules → ∀ cc ∈ c.compiled names,
        KeptHold (fun n => ¬ n.isThemeMark → ∀ text ∈ n.texts, ¬ HoldsCall text) cc.nodes) ∧
      (∀ e ∈ c.declaredEntries (c.flatNodes names), ¬ HoldsCall e.value) ∧
      NoCall (c.keyframeNodes (c.flatNodes names)) ∧ NoCall (propertyNodes (c.registry names))) ∧
    (LoadsNoPlugin css base r → c.system.theme.IsCallFree →
      (∀ k ∈ c.system.theme.keyframes, NoCall [k.node]) → c.system.variants.HoldNoCall →
      (∀ e ∈ c.system.utilities.entries, e.2.AsksApart) →
      (∀ ns, scanned css base r = .ok ns → ∀ n ∈ allNodes ns, n.WritesFlat) →
      (∀ raw ∈ names, IsCallFree raw) → NoCall (c.output names)) := by
  refine ⟨?_, fun hplugins => ?_, noCall_output_iff,
    fun hplugins ht hkeyframes hvs hasks hns hnames => ?_⟩
  · exact exists_applied h
  · obtain ⟨ns, hscanned, hutilities⟩ := declares_of_mem_utilities h hplugins
    obtain ⟨_, dark, hscanned', hvariants⟩ := declaresVariant_of_mem_variants h hplugins
    obtain rfl := Except.ok.inj (hscanned.symm.trans hscanned')
    refine ⟨ns, dark, hscanned, fun e he => (hutilities e he).imp_right ?_,
      fun e he => (hvariants e he).imp_right ?_⟩
    · rintro ⟨n, hn, d, applied, htheme, hdeclares⟩
      exact ⟨n, hn, d, applied, htheme, hdeclares, hdeclares.noCall_iff⟩
    · rintro ⟨n, hn, hdeclares⟩
      exact ⟨n, hn, hdeclares, fun nodes hbody => (hbody ▸ hdeclares).body_eq,
        fun _ _ hwrap => hdeclares.noCall_wrap_iff hwrap⟩
  · obtain ⟨hsystem, hnodes⟩ := noCall_of_declared h hplugins ht hvs hasks hns
    exact noCall_output_of_opensNone ht.opensNone hnodes (opensNone_compiled hsystem hnames)
      (noCall_keyframeNodes hkeyframes)

def calledStyles : String :=
  "@theme \x7b --a: red; --spacing: 1px; \x7d " ++
    "@custom-variant wide \x7b @media print \x7b @slot; \x7d \x7d " ++
    "@utility tint \x7b color: theme(--a); \x7d " ++
    "@utility tab-* \x7b tab-size: --value(integer); \x7d " ++
    ".x \x7b @variant hover \x7b @apply tint; margin: --spacing(2); \x7d \x7d @tailwind utilities;"

def calledNames : List String := ["wide:tint", "tab-4", "wide:hover:p-[3px]"]

def writesInteger : Recipe → Bool
  | .declared body => (allNodes body).all fun n => n.texts.all (· == "--value(integer)")
  | _ => true

private theorem asksApart_of_writesInteger {r : Recipe} (h : writesInteger r) : r.AsksApart := by
  have hnone : Chars.IsCallFree [] := Chars.isCallFree_of_notMem List.not_mem_nil
  have hcall : Chars.AsksApart askPhrases ([] ++ ("--value(".toList ++ ("integer".toList ++ [')']))) :=
    .call hnone rfl List.mem_cons_self (by decide) (by decide) rfl (.plain hnone)
  have hvalue : AsksApart "--value(integer)" := by
    rw [AsksApart, show "--value(integer)".toList = _ from (by decide : _ =
      [] ++ ("--value(".toList ++ ("integer".toList ++ [')'])))]
    exact hcall
  cases r with
  | declared body =>
    intro n hn
    have htexts := List.all_eq_true.1 (List.all_eq_true.1 h n hn)
    cases n with
    | decl property text important =>
      obtain rfl := eq_of_beq (htexts text List.mem_cons_self)
      exact hvalue
    | _ => trivial
  | _ => trivial

theorem noCall_output_names :
    ∃ c, compile calledStyles "" .refusing = .ok c ∧
      (∀ raw ∈ calledNames, (c.system.compile? raw).isSome) ∧ NoCall (c.output calledNames) ∧
      ∃ e ∈ c.system.utilities.entries, e.1 = "tint" ∧ ∃ (d : DesignSystem) (n : Node)
        (applied : List Node), d.Declares n applied e := by
  obtain ⟨c, hc, h⟩ := exists_of_compile calledStyles
    (fun c =>
      decide c.system.theme.IsCallFree && c.system.theme.keyframes.isEmpty &&
      decide c.system.variants.HoldNoCall && c.system.utilities.entries.all (writesInteger ·.2) &&
      (scanned calledStyles "" .refusing).toOption.all (fun ns =>
        decide (∀ n ∈ allNodes ns, n.WritesFlat)) &&
      (parse calledStyles).toOption.all (fun ns =>
        (Resolver.refusing.load "" ns).toOption.all (·.modules.isEmpty)) &&
      calledNames.all (fun raw => (c.system.compile? raw).isSome) &&
      c.system.utilities.entries.any (·.1 == "tint"))
    (by decide +kernel)
  have hfree : ∀ raw ∈ calledNames, IsCallFree raw := by decide
  have hbuiltin : ∀ e ∈ Utilities.builtin.entries, e.1 ≠ "tint" := by decide +kernel
  rw [Bool.and_eq_true, Bool.and_eq_true, Bool.and_eq_true] at h
  obtain ⟨⟨⟨h, hload⟩, hnames⟩, htint⟩ := h
  have hplugins : LoadsNoPlugin calledStyles "" .refusing := loadsNoPlugin_of_all hload
  simp only [Bool.and_eq_true, decide_eq_true_eq, List.isEmpty_iff, List.all_eq_true] at h hnames
  obtain ⟨⟨⟨⟨ht, hkeyframes⟩, hvs⟩, hinteger⟩, hns⟩ := h
  obtain ⟨e, he, hname⟩ := List.any_eq_true.1 htint
  rw [beq_iff_eq] at hname
  obtain ⟨-, hstores, -, hnone⟩ := noCall_output hc calledNames
  refine ⟨c, hc, hnames, hnone hplugins ht ?_ hvs (fun e he => asksApart_of_writesInteger (hinteger e he))
    ?_ hfree, e, he, hname, ?_⟩
  · rw [hkeyframes]
    nofun
  · intro ns hscanned
    rw [hscanned] at hns
    exact of_decide_eq_true hns
  · obtain ⟨ns, dark, -, hutilities, -⟩ := hstores hplugins
    rcases hutilities e he with he | ⟨n, -, d, applied, -, hdeclares, -⟩
    · exact absurd hname (hbuiltin e he)
    · exact ⟨d, n, applied, hdeclares⟩

/-- A call in a value of the theme is declared as it is written. -/
theorem call_left_in_theme :
    ∃ c, compile "@theme \x7b --a: red; --b: theme(--a); \x7d .x \x7b color: var(--b); \x7d" ""
      .refusing = .ok c ∧ ¬ NoCall (c.output []) := by
  obtain ⟨c, hc, h⟩ := exists_of_compile
    "@theme \x7b --a: red; --b: theme(--a); \x7d .x \x7b color: var(--b); \x7d"
    (fun c =>
      c.system.theme.entries.any (fun e => e.emittable && e.key == "--b") &&
        (c.system.theme.get? "--b").any (fun e => decide (HoldsCall e.value)) &&
        (readNames (flatten (withoutProperties
          (placeAtFirst Node.isUtilitiesMark [] c.nodes).1))).contains "--b")
    (by decide +kernel)
  simp only [← flatNodes_nil, Bool.and_eq_true, List.any_eq_true, beq_iff_eq, Option.any_eq_true,
    decide_eq_true_eq, List.contains_iff_mem] at h
  obtain ⟨⟨hem, e, hget, hcall⟩, hread⟩ := h
  refine ⟨c, hc, fun hnone => (noCall_output_iff.1 hnone).2.2.1 e (mem_declaredEntries.2 ?_) hcall⟩
  rw [(Theme.mem_of_get? hget).2]
  exact ⟨hget, Theme.mem_entriesUsed.2 ⟨hem, .start (List.mem_append_left _ hread)⟩⟩

end Compiler

end UtilityCss
