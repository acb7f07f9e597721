import UtilityCss.Proofs.Compiler.Variables
import UtilityCss.Proofs.Design.VariantBlock

/-!
# Variant blocks in a compiled stylesheet

Compiling replaces the outermost variant blocks in the rules of a stylesheet. A block inside of one of
them is left, and so is one that the variant itself or an applied class name brings in.
-/

namespace UtilityCss

/-- The nodes of a stylesheet and its imports that are to be expanded, without theme blocks and
without the declarations of variants and utilities. -/
def authored (css base : String) (r : Resolver) : Except CompileError (List Node) := do
  let ns ← (parse css).mapError .css
  let loaded ← r.load base ns
  let scan ← scanThemes false loaded.nodes
  return (scan.nodes.filter (·.variantDeclaration?.isNone)).filter (·.utilityDeclaration?.isNone)

namespace Compiler

variable {css base : String} {r : Resolver} {c : Compiler}

/-- The stages of a compile: a stylesheet is read and loaded, the theme is taken out, variants,
plugins and utilities extend the built-in system in this order, and what is left is expanded. -/
theorem exists_stages (h : compile css base r = .ok c) :
    ∃ (parsed : List Node) (loaded : Loaded) (scan : ThemeScan)
      (settings : List ThemeEvent × DarkMode) (withVariants withPlugins : DesignSystem)
      (ms : List Node),
      parse css = .ok parsed ∧ r.load base parsed = .ok loaded ∧
      scanThemes false loaded.nodes = .ok scan ∧
      (DesignSystem.builtin (Theme.ofEvents (scan.events ++ settings.1)) settings.2).declareVariants
        scan.nodes = .ok withVariants ∧
      registerPlugins withVariants loaded.modules = .ok withPlugins ∧
      withPlugins.declareUtilities (scan.nodes.filter (·.variantDeclaration?.isNone)) =
        .ok c.system ∧
      expand c.system ((scan.nodes.filter (·.variantDeclaration?.isNone)).filter
        (·.utilityDeclaration?.isNone)) = .ok ms ∧
      c.nodes = keepFirst Node.isUtilitiesMark ms := by
  rw [compile] at h
  obtain ⟨parsed, hparse, h⟩ := bind_eq_ok.1 h
  obtain ⟨loaded, hload, h⟩ := bind_eq_ok.1 h
  rw [ofLoaded] at h
  obtain ⟨scan, hscan, h⟩ := bind_eq_ok.1 h
  obtain ⟨settings, -, h⟩ := bind_eq_ok.1 h
  obtain ⟨withVariants, hvariants, h⟩ := bind_eq_ok.1 h
  obtain ⟨withPlugins, hplugins, h⟩ := bind_eq_ok.1 h
  obtain ⟨system, hutilities, h⟩ := bind_eq_ok.1 h
  obtain ⟨ms, hms, h⟩ := bind_eq_ok.1 h
  cases h
  exact ⟨parsed, loaded, scan, settings, withVariants, withPlugins, ms, mapError_eq_ok.1 hparse,
    hload, hscan, hvariants, hplugins, hutilities, hms, rfl⟩

/-- A compiled stylesheet comes from what is to be expanded of its source. -/
theorem exists_authored (h : compile css base r = .ok c) :
    ∃ ns ms, authored css base r = .ok ns ∧ expand c.system ns = .ok ms ∧
      c.nodes = keepFirst Node.isUtilitiesMark ms := by
  obtain ⟨parsed, loaded, scan, -, -, -, ms, hparse, hload, hscan, -, -, -, hms, hnodes⟩ :=
    exists_stages h
  refine ⟨_, ms, ?_, hms, hnodes⟩
  rw [authored, hparse]
  change (r.load base parsed >>= _) = _
  rw [hload]
  change (scanThemes false loaded.nodes >>= _) = _
  rw [hscan]
  rfl

private theorem noVariantBlockInRule_keepFirst {ns : List Node} :
    NoVariantBlockInRule (keepFirst Node.isUtilitiesMark ns) ↔ NoVariantBlockInRule ns := by
  have hmark : ∀ n, Node.isUtilitiesMark n →
      n.isRule = false ∧ n.isVariantBlock = false ∧ n.children = [] := by
    intro n hn
    cases n with
    | statement => exact ⟨rfl, rfl, rfl⟩
    | _ => exact absurd hn Bool.false_ne_true
  rw [← noVariantBlockFrom_false, ← noVariantBlockFrom_false]
  exact noVariantBlockFrom_placeEach hmark

/-- The variant of every outermost block in a rule of the source is known and wraps its body. What
is left in rules comes from there: no block is exactly if none is left of the wrapped bodies and
nothing that is applied brings one in. -/
theorem noVariantBlockInRule_iff (h : compile css base r = .ok c) :
    ∃ ns, authored css base r = .ok ns ∧
      (∀ rule ∈ visited (!·.isRule) ns, rule.isRule →
        ∀ b ∈ visited (!·.isVariantBlock) rule.children, b.isVariantBlock →
          ∃ ks, c.system.Wraps b ks) ∧
      (NoVariantBlockInRule c.nodes ↔ ∀ n ∈ visited (fun n => !n.isRule && !n.isApply) ns,
        (n.isRule → c.system.ExpandsAll n.children) ∧
          c.system.Applies NoVariantBlockInRule n) := by
  obtain ⟨ns, ms, hns, hms, hnodes⟩ := exists_authored h
  rw [expand] at hms
  obtain ⟨expanded, hexpand, hms⟩ := bind_eq_ok.1 hms
  obtain ⟨applied, happly, hms⟩ := bind_eq_ok.1 hms
  refine ⟨ns, hns, DesignSystem.exists_wraps_of_expandVariants hexpand, ?_⟩
  rw [hnodes, noVariantBlockInRule_keepFirst, ← noVariantBlockFrom_false,
    noVariantBlockFrom_evaluateEach hms, noVariantBlockFrom_false,
    DesignSystem.noVariantBlockInRule_applyEach happly, DesignSystem.forall_expandVariants hexpand]

theorem noVariantBlockInRule_iff_hover :
    ∃ c b ks, compile ".a \x7b @variant hover \x7b color: red; \x7d \x7d" "" .refusing = .ok c ∧
      Text.trim b.params = "hover" ∧ c.system.Wraps b ks := by
  obtain ⟨c, hc, -⟩ := exists_of_compile ".a \x7b @variant hover \x7b color: red; \x7d \x7d"
    (fun _ => true) (by decide +kernel)
  have hblock : (authored ".a \x7b @variant hover \x7b color: red; \x7d \x7d" "" .refusing).toOption.any
      (fun ns => (visited (!·.isRule) ns).any fun rule => rule.isRule &&
        (visited (!·.isVariantBlock) rule.children).any fun b =>
          b.isVariantBlock && Text.trim b.params == "hover") = true := by
    decide +kernel
  obtain ⟨ns, hns, hread, -⟩ := noVariantBlockInRule_iff hc
  rw [hns] at hblock
  simp only [Except.toOption, Option.any_some, List.any_eq_true, Bool.and_eq_true,
    beq_iff_eq] at hblock
  obtain ⟨rule, hrule, hisRule, b, hb, hisBlock, hparams⟩ := hblock
  obtain ⟨ks, hwraps⟩ := hread rule hrule hisRule b hb hisBlock
  exact ⟨c, b, ks, hc, hparams, hwraps⟩

/-- A variant block in another one is left in the rule. -/
theorem nested_block_left :
    ∃ c, compile ".a \x7b @variant hover \x7b @variant focus \x7b color: red; \x7d \x7d \x7d" ""
      .refusing = .ok c ∧ ¬ NoVariantBlockInRule c.nodes := by
  obtain ⟨c, hc, h⟩ := exists_of_compile
    ".a \x7b @variant hover \x7b @variant focus \x7b color: red; \x7d \x7d \x7d"
    (fun c => (allNodes c.nodes).any fun n => n.isRule && (allNodes n.children).any (·.isVariantBlock))
    (by decide +kernel)
  refine ⟨c, hc, fun hnone => ?_⟩
  simp only [List.any_eq_true, Bool.and_eq_true] at h
  obtain ⟨n, hn, hrule, b, hb, hblock⟩ := h
  exact hnone n hn hrule b hb hblock

end Compiler

end UtilityCss
