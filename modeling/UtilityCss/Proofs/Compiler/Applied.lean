import UtilityCss.Proofs.Compiler.ClassNames
import UtilityCss.Proofs.Compiler.Contents
import UtilityCss.Proofs.Compiler.VariantBlock
import UtilityCss.Proofs.Design.Applied

/-!
# Lists of applied class names in the output

What class names stand for that are applied is not searched for further `@apply`, and neither are the
rules for class names nor the keyframes of the theme. An `@apply` in the output comes from one of
these. Without plugins this takes a variant that is declared with an `@apply`, one in brackets that is
an `@apply`, or keyframes of the theme that hold one.
-/

namespace UtilityCss

/-- The nodes of a stylesheet and its imports without theme blocks. -/
def scanned (css base : String) (r : Resolver) : Except CompileError (List Node) := do
  let ns ← (parse css).mapError .css
  let loaded ← r.load base ns
  let scan ← scanThemes false loaded.nodes
  return scan.nodes

/-- Whether a stylesheet and its imports load no plugin. -/
def LoadsNoPlugin (css base : String) (r : Resolver) : Prop :=
  ∀ ns loaded, parse css = .ok ns → r.load base ns = .ok loaded →
    ∀ m ∈ loaded.modules, ∀ p, m.module ≠ .plugin p

theorem loadsNoPlugin_of_all {css : String}
    (h : ((parse css).toOption.all fun ns =>
      (Resolver.refusing.load "" ns).toOption.all (·.modules.isEmpty)) = true) :
    LoadsNoPlugin css "" .refusing := by
  intro ns loaded hparse hloaded m hm
  rw [hparse, Except.toOption, Option.all_some, hloaded, Except.toOption, Option.all_some,
    List.isEmpty_iff] at h
  rw [h] at hm
  exact absurd hm List.not_mem_nil

namespace Compiler

variable {css base : String} {r : Resolver} {c : Compiler} {names : List String}

private theorem registerPlugins_eq {d d' : DesignSystem} {modules : List LoadedModule}
    (hnone : ∀ m ∈ modules, ∀ p, m.module ≠ .plugin p) (h : registerPlugins d modules = .ok d') :
    d' = d := by
  refine foldlM_invariant (P := (· = d)) (fun m hm d₁ d₂ hd₁ hd₂ => ?_) rfl h
  split at hd₂
  · next p hp => exact absurd hp (hnone m hm p)
  · cases hd₂
    exact hd₁

/-- The nodes without theme blocks, and the stages from there. -/
theorem exists_scanned (h : compile css base r = .ok c) (hplugins : LoadsNoPlugin css base r) :
    ∃ ns events dark d ms, scanned css base r = .ok ns ∧
      (DesignSystem.builtin (Theme.ofEvents events) dark).declareVariants ns = .ok d ∧
      d.declareUtilities (ns.filter (·.variantDeclaration?.isNone)) = .ok c.system ∧
      expand c.system ((ns.filter (·.variantDeclaration?.isNone)).filter
        (·.utilityDeclaration?.isNone)) = .ok ms ∧
      c.nodes = keepFirst Node.isUtilitiesMark ms := by
  obtain ⟨parsed, loaded, scan, settings, withVariants, withPlugins, ms, hparse, hload, hscan,
    hvariants, hregister, hutilities, hms, hnodes⟩ := exists_stages h
  obtain rfl := registerPlugins_eq (hplugins parsed loaded hparse hload) hregister
  refine ⟨scan.nodes, _, _, _, ms, ?_, hvariants, hutilities, hms, hnodes⟩
  rw [scanned, hparse]
  change (r.load base parsed >>= _) = _
  rw [hload]
  change (scanThemes false loaded.nodes >>= _) = _
  rw [hscan]
  rfl

/-- The variants that stylesheets without plugins are compiled with are the built-in ones of the theme,
extended by what is declared. -/
theorem extends_builtin (h : compile css base r = .ok c) (hplugins : LoadsNoPlugin css base r) :
    ∃ dark, (Variants.builtin c.system.theme dark).Extends c.system.variants := by
  obtain ⟨ns, events, dark, d, ms, -, hvariants, hutilities, -, -⟩ := exists_scanned h hplugins
  obtain ⟨htheme, hsame⟩ := DesignSystem.theme_and_variants_declareUtilities hutilities
  have hstart : d.theme = Theme.ofEvents events := (DesignSystem.stores_declareVariants hvariants).1
  have hextends := DesignSystem.extends_declareVariants hvariants
  rw [DesignSystem.variants_builtin] at hextends
  rw [htheme, hsame, hstart]
  exact ⟨dark, hextends⟩

theorem not_isApply_of_isMark {n : Node} (h : n.isThemeMark ∨ n.isUtilitiesMark) : ¬ n.isApply := by
  intro happly
  cases n with
  | statement name params =>
    obtain rfl : name = "apply" := by simpa [Node.isApply, Node.isAt, Node.atName?] using happly
    simp [Node.isThemeMark, Node.isUtilitiesMark] at h
  | _ => exact absurd h (by simp [Node.isThemeMark, Node.isUtilitiesMark])

theorem noApply_keepFirst {ns : List Node} :
    NoApply (keepFirst Node.isUtilitiesMark ns) ↔ NoApply ns := by
  exact forall_keepEach (.not Node.isApply_withChildren) (fun _ hmark => not_isApply_of_isMark (.inr hmark))
    (fun _ => Node.children_of_isUtilitiesMark) (fun _ _ => rfl) false

theorem noApply_nodes_iff (h : compile css base r = .ok c) :
    ∃ ns ms, authored css base r = .ok ns ∧ expandVariants c.system ns = .ok ms ∧
      (NoApply c.nodes ↔ ∀ n ∈ visited (!·.isApply) ms, c.system.Applies NoApply n) := by
  obtain ⟨ns, ms, hns, hms, hnodes⟩ := exists_authored h
  obtain ⟨expanded, hexpanded, hms⟩ := bind_eq_ok.1 hms
  obtain ⟨applied, happlied, hms⟩ := bind_eq_ok.1 hms
  refine ⟨ns, expanded, hns, hexpanded, ?_⟩
  rw [hnodes, noApply_keepFirst, noApply_evaluateEach hms]
  exact DesignSystem.noApply_applyEach_iff happlied

/-- Without plugins, nothing of an `@apply` is left in the system and the stylesheet, if no variant
that is declared or written brings one in. -/
theorem noApply_of_declared (h : compile css base r = .ok c) (hplugins : LoadsNoPlugin css base r)
    (hvs : c.system.variants.HoldNoApply)
    (hns : ∀ ns, scanned css base r = .ok ns →
      ∀ n ∈ allNodes ns, c.system.variants.WritesNoApply n) :
    c.system.utilities.HoldNoApply ∧ NoApply c.nodes := by
  obtain ⟨ns, events, dark, d, ms, hscanned, hvariants, hutilities, hms, hnodes⟩ :=
    exists_scanned h hplugins
  have hwritten := hns ns hscanned
  have hsame : c.system.variants = d.variants :=
    (DesignSystem.theme_and_variants_declareUtilities hutilities).2
  have hus : c.system.utilities.HoldNoApply := by
    rw [hsame] at hvs hwritten
    refine DesignSystem.holdNoApply_declareUtilities ?_ hvs (fun n hn => hwritten n ?_) hutilities
    · rw [(DesignSystem.stores_declareVariants hvariants).2.1]
      exact holdNoApply_builtinUtilities
    · exact (allNodes_sublist List.filter_sublist).subset hn
  refine ⟨hus, ?_⟩
  obtain ⟨expanded, hexpanded, hms⟩ := bind_eq_ok.1 hms
  obtain ⟨applied, happlied, hms⟩ := bind_eq_ok.1 hms
  rw [hnodes, noApply_keepFirst, noApply_evaluateEach hms]
  refine DesignSystem.noApply_applyEach hus hvs ?_ happlied
  refine DesignSystem.appliesOnly_expandVariants hvs (fun n hn => hwritten n ?_) hexpanded
  exact (allNodes_sublist (List.filter_sublist.trans List.filter_sublist)).subset hn

theorem keptHold_of_noApply {ns : List Node} (h : NoApply ns) : KeptHold (fun n => ¬ n.isApply) ns :=
  fun n hn _ => h n ((visited_sublist _ _).subset hn)

private theorem noApply_propertyNodes {registry : PropertyRegistry} :
    NoApply (propertyNodes registry) := by
  rw [propertyNodes]
  split
  · exact appliesOnly_nil
  · rw [← List.singleton_append]
    refine appliesOnly_append.2 ⟨?_, appliesOnly_iff_forall_mem.2 fun n hn => ?_⟩
    · refine AppliesOnly.atRule (by decide) (AppliesOnly.atRule (by decide) (appliesOnly_rule.2 ?_))
      refine appliesOnly_of_isDecl fun n hn => ?_
      obtain ⟨p, -, rfl⟩ := List.mem_map.1 hn
      rfl
    · obtain ⟨p, -, rfl⟩ := List.mem_map.1 hn
      exact appliesOnly_definition

/-- An `@apply` in the output was left by what is applied in the stylesheet, is part of what a class
name stands for, or is in keyframes of the theme. -/
theorem noApply_output_iff :
    NoApply (c.output names) ↔
      KeptHold (fun n => ¬ n.isApply) c.nodes ∧
      (c.PlacesRules → ∀ cc ∈ c.compiled names, KeptHold (fun n => ¬ n.isApply) cc.nodes) ∧
      NoApply (c.keyframeNodes (c.flatNodes names)) := by
  have hnot : IsOfHead fun n => ¬ n.isApply := .not Node.isApply_withChildren
  have hrule : ∀ sel ns, ¬ (Node.rule sel ns).isApply := fun _ _ => Bool.false_ne_true
  have htheme (n : Node) : (¬ n.isThemeMark → ¬ n.isApply) ↔ ¬ n.isApply :=
    ⟨fun h happly => h (fun hmark => not_isApply_of_isMark (.inl hmark) happly) happly, fun h _ => h⟩
  have hutilities (n : Node) : (¬ n.isUtilitiesMark → ¬ n.isApply) ↔ ¬ n.isApply :=
    ⟨fun h happly => h (fun hmark => not_isApply_of_isMark (.inr hmark) happly) happly,
      fun h _ => h⟩
  have hproperties : ∀ n ∈ allNodes (propertyNodes (c.registry names)), ¬ n.isApply :=
    noApply_propertyNodes
  have hdeclared : ∀ e ∈ c.declaredEntries (c.flatNodes names), ¬ (Node.plain e.key e.value).isApply :=
    fun _ _ => Bool.false_ne_true
  refine (forall_output_iff hnot hrule).trans ?_
  rw [keptHold_congr htheme, forall_assembled hnot hrule, keptHold_congr hutilities, and_assoc,
    and_iff_right hdeclared, and_iff_left hproperties]
  rfl

private theorem noApply_compiled (hus : c.system.utilities.HoldNoApply)
    (hvs : c.system.variants.HoldNoApply)
    (hnames : ∀ raw ∈ names, c.system.variants.NamesNoApply (Text.trim raw)) :
    ∀ cc ∈ c.compiled names, NoApply cc.nodes := by
  intro cc hcc
  obtain ⟨raw, hraw, hcompile⟩ := List.mem_filterMap.1 ((sortBy_perm _).subset hcc)
  obtain ⟨-, name, hname, rfl⟩ := mem_classNames.1 hraw
  exact DesignSystem.gives_noApply hus hvs (hnames name hname) cc hcompile

/-- An `@apply` in the output was left in the compiled stylesheet by what is applied there, is part of
what a class name stands for, or is in keyframes of the theme. Without plugins there is none in rules,
utilities and variant blocks, whatever they apply, if no variant is declared with one, no class name
and no variant block has one in brackets, and no keyframes of the theme hold one. -/
theorem noApply_output (h : compile css base r = .ok c) (names : List String) :
    (∃ ns ms, authored css base r = .ok ns ∧ expandVariants c.system ns = .ok ms ∧
      (NoApply c.nodes ↔ ∀ n ∈ visited (!·.isApply) ms, c.system.Applies NoApply n)) ∧
    (NoApply (c.output names) ↔
      KeptHold (fun n => ¬ n.isApply) c.nodes ∧
      (c.PlacesRules → ∀ cc ∈ c.compiled names, KeptHold (fun n => ¬ n.isApply) cc.nodes) ∧
      NoApply (c.keyframeNodes (c.flatNodes names))) ∧
    (LoadsNoPlugin css base r → c.system.variants.HoldNoApply →
      (∀ ns, scanned css base r = .ok ns →
        ∀ n ∈ allNodes ns, c.system.variants.WritesNoApply n) →
      (∀ raw ∈ names, c.system.variants.NamesNoApply (Text.trim raw)) →
      NoApply (c.keyframeNodes (c.flatNodes names)) →
      NoApply (c.output names)) := by
  refine ⟨noApply_nodes_iff h, noApply_output_iff, fun hplugins hvs hns hnames hkeyframes => ?_⟩
  obtain ⟨hus, hnodes⟩ := noApply_of_declared h hplugins hvs hns
  exact noApply_output_iff.2 ⟨keptHold_of_noApply hnodes,
    fun _ cc hcc => keptHold_of_noApply (noApply_compiled hus hvs hnames cc hcc), hkeyframes⟩

def appliedStyles : String :=
  ".a \x7b @variant hover \x7b @apply flex; \x7d \x7d @tailwind utilities;"

theorem noApply_output_flex :
    ∃ c, compile appliedStyles "" .refusing = .ok c ∧ NoApply (c.output ["flex"]) := by
  obtain ⟨c, hc, h⟩ := exists_of_compile appliedStyles
    (fun c =>
      decide c.system.variants.HoldNoApply &&
      (scanned appliedStyles "" .refusing).toOption.all (fun ns =>
        decide (∀ n ∈ allNodes ns, c.system.variants.WritesNoApply n)) &&
      decide (c.system.variants.NamesNoApply (Text.trim "flex")) &&
      c.system.theme.keyframes.isEmpty)
    (by decide +kernel)
  have hplugins : LoadsNoPlugin appliedStyles "" .refusing := loadsNoPlugin_of_all (by decide +kernel)
  simp only [Bool.and_eq_true, decide_eq_true_eq, List.isEmpty_iff] at h
  obtain ⟨⟨⟨hvs, hns⟩, hname⟩, hkeyframes⟩ := h
  refine ⟨c, hc, (noApply_output hc ["flex"]).2.2 hplugins hvs ?_
    (List.forall_mem_singleton.2 hname) ?_⟩
  · intro ns hscanned
    rw [hscanned] at hns
    exact of_decide_eq_true hns
  · rw [keyframeNodes, hkeyframes]
    exact appliesOnly_nil

def variantStyles : String :=
  "@custom-variant foo \x7b &:hover \x7b @apply flex; @slot; \x7d \x7d " ++
    ".a \x7b @apply foo:underline; \x7d"

/-- A variant brings an `@apply` into the output. -/
theorem apply_left_by_variant :
    ∃ c, compile variantStyles "" .refusing = .ok c ∧ ¬ NoApply (c.output []) := by
  obtain ⟨c, hc, h⟩ := exists_of_compile variantStyles
    (fun c => (visited Node.isKept c.nodes).any fun n => n.isKept && n.isApply) (by decide +kernel)
  simp only [List.any_eq_true, Bool.and_eq_true] at h
  obtain ⟨n, hn, hkept, happly⟩ := h
  exact ⟨c, hc, fun hnone => (noApply_output_iff.1 hnone).1 n hn hkept happly⟩

end Compiler

end UtilityCss
