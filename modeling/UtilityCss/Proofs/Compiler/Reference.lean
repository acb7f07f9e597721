import UtilityCss.Proofs.Compiler.Variables
import UtilityCss.Proofs.Design.Expanded
import UtilityCss.Proofs.Import.ThemeBlock
import UtilityCss.Proofs.Utility.Resolved

/-!
# Theme values that are references

A key that is set in marked theme blocks only is never declared in the output, whatever reads it, and
utilities write its value out. Keyframes that are defined in marked blocks only are not written. It does
not matter by which of the ways a block is marked, and behind how many imports it is.
-/

namespace UtilityCss

/-- Whether a key is set in marked theme blocks only. -/
def KeyIsReference (r : Resolver) (base : String) (ns : List Node) (key : String) : Prop :=
  ∀ marked body, SourceBlock r base ns marked body → SetsKey key body → marked

/-- Whether keyframes of a name are defined in marked theme blocks only. -/
def KeyframesAreReference (r : Resolver) (base : String) (ns : List Node) (name : String) : Prop :=
  ∀ marked body, SourceBlock r base ns marked body → DefinesKeyframes name body → marked

/-- Whether plugins leave the theme as it is, which they are given to read. -/
def Resolver.KeepsTheme (r : Resolver) : Prop :=
  ∀ p, r.Knows (.plugin p) → ∀ options d d', p.register options d = .ok d' → d'.theme = d.theme

section Theme

variable {d d' : DesignSystem} {ns : List Node}

private theorem Compiler.theme_registerPlugins {modules : List LoadedModule}
    (hkeeps : ∀ m ∈ modules, ∀ p, m.module = .plugin p → ∀ options d d',
      p.register options d = .ok d' → d'.theme = d.theme)
    (h : registerPlugins d modules = .ok d') : d'.theme = d.theme := by
  refine foldlM_invariant (P := fun d' => d'.theme = d.theme) (fun m hm d₁ d₂ hd₁ hd₂ => ?_) rfl h
  split at hd₂
  · next p hp => exact (hkeeps m hm p hp _ _ _ hd₂).trans hd₁
  · cases hd₂
    exact hd₁

end Theme

theorem isReference_of_moduleSettings {modules : List LoadedModule}
    {settings : List ThemeEvent × DarkMode} (h : Compiler.moduleSettings modules = .ok settings) :
    ∀ e ∈ settings.1, ∃ key value options, e = .set key value options ∧ options.isReference := by
  refine foldlM_invariant (P := fun settings : List ThemeEvent × DarkMode =>
    ∀ e ∈ settings.1, ∃ key value options, e = .set key value options ∧ options.isReference)
    (fun config _ before after hbefore hafter => ?_) (fun _ he => absurd he List.not_mem_nil) h
  obtain ⟨mode, -, hafter⟩ := bind_eq_ok.1 hafter
  cases hafter
  intro e he
  rcases List.mem_append.1 he with he | he
  · exact hbefore e he
  · obtain ⟨⟨name, v⟩, -, he⟩ := List.mem_flatMap.1 he
    obtain ⟨⟨key, value⟩, -, rfl⟩ := List.mem_map.1 he
    exact ⟨key, value, Config.themeOptions, rfl, rfl⟩

namespace Compiler

variable {css base : String} {r : Resolver} {c : Compiler} {parsed : List Node}

/-- The theme of a compiled stylesheet is built from what its theme blocks say and from what is set
by configurations. -/
theorem exists_themeEvents (hkeeps : r.KeepsTheme) (hparse : parse css = .ok parsed)
    (h : compile css base r = .ok c) :
    ∃ events, c.system.theme = Theme.ofEvents events ∧ ∀ e ∈ events,
      (∃ marked body options, SourceBlock r base parsed marked body ∧
          (marked → options.isReference) ∧ IsBlockEvent options body e) ∨
        ∃ key value options, e = .set key value options ∧ options.isReference := by
  rw [compile, hparse] at h
  obtain ⟨_, heq, h⟩ := bind_eq_ok.1 h
  cases heq
  obtain ⟨loaded, hload, h⟩ := bind_eq_ok.1 h
  obtain ⟨scan, hscan, h⟩ := bind_eq_ok.1 h
  obtain ⟨settings, hsettings, h⟩ := bind_eq_ok.1 h
  obtain ⟨withVariants, hvariants, h⟩ := bind_eq_ok.1 h
  obtain ⟨withPlugins, hplugins, h⟩ := bind_eq_ok.1 h
  obtain ⟨system, hutilities, h⟩ := bind_eq_ok.1 h
  obtain ⟨ms, -, h⟩ := bind_eq_ok.1 h
  cases h
  refine ⟨scan.events ++ settings.1, ?_, fun e he => ?_⟩
  · have hregister := theme_registerPlugins (fun m hm p hp =>
      hkeeps p (hp ▸ Resolver.knows_of_loadWithin hload m hm)) hplugins
    exact (DesignSystem.theme_and_variants_declareUtilities hutilities).1.trans
      (hregister.trans (DesignSystem.stores_declareVariants hvariants).1)
  · rcases List.mem_append.1 he with he | he
    · obtain ⟨marked, body, options, hblock, hmarked, he⟩ := exists_block_of_mem_events hscan he
      exact .inl ⟨marked, body, options, sourceBlock_of_loadWithin hload hblock, hmarked, he⟩
    · exact .inr (isReference_of_moduleSettings hsettings e he)

theorem not_emittable_of_keyIsReference (hkeeps : r.KeepsTheme) (hparse : parse css = .ok parsed)
    (h : compile css base r = .ok c) {key : String} (hkey : KeyIsReference r base parsed key) :
    ∀ e ∈ c.system.theme.entries, e.key = key → e.emittable = false := by
  rintro entry hentry rfl
  obtain ⟨events, htheme, hevents⟩ := exists_themeEvents hkeeps hparse h
  rw [htheme] at hentry
  rw [← Bool.not_eq_true]
  intro hem
  obtain ⟨e, he, setting, hset, href⟩ := exists_setting_of_emittable hentry hem
  obtain ⟨marked, body, options, hblock, hmarked, he⟩ | ⟨k, value, options, rfl, hoptions⟩ :=
    hevents e he
  · obtain ⟨hsets, hsetting⟩ := setsKey_of_isBlockEvent he hset
    exact href (hsetting ▸ hmarked (hkey marked body hblock hsets))
  · obtain ⟨-, hset⟩ := Option.ite_none_right_eq_some.1 hset
    cases hset
    exact href hoptions

theorem isReference_of_keyframesAreReference (hkeeps : r.KeepsTheme) (hparse : parse css = .ok parsed)
    (h : compile css base r = .ok c) {k : ThemeKeyframes} (hk : k ∈ c.system.theme.keyframes) :
    k.node.keyframesName? = some k.name ∧
      (KeyframesAreReference r base parsed k.name → k.options.isReference) := by
  obtain ⟨events, htheme, hevents⟩ := exists_themeEvents hkeeps hparse h
  rw [htheme] at hk
  obtain ⟨marked, body, options, hblock, hmarked, he⟩ | ⟨_, _, _, heq, -⟩ :=
    hevents _ (mem_of_mem_keyframes hk)
  · obtain ⟨hdefines, hoptions, hname⟩ := definesKeyframes_of_isBlockEvent he
    exact ⟨hname, fun hall => hoptions ▸ hmarked (hall marked body hblock hdefines)⟩
  · cases heq

/-- Whether nodes hold no at-rules with blocks and import other stylesheets as references only. -/
def onlyRefers (ns : List Node) : Bool :=
  ns.all fun
    | .statement name params => name != "import" || (Import.read? params).all (·.isReference)
    | .atRule _ _ _ => false
    | _ => true

private theorem marked_of_onlyRefers (r : Resolver) (base : String) {ns : List Node}
    (h : onlyRefers ns) :
    ∀ marked body, SourceBlock r base ns marked body → marked := by
  rw [onlyRefers, List.all_eq_true] at h
  intro marked body hblock
  cases hblock with
  | here hblock =>
    cases hblock with
    | own hmem => exact absurd (h _ hmem) Bool.false_ne_true
    | referenced hmem => exact absurd (h _ hmem) Bool.false_ne_true
    | grouped hmem => exact absurd (h _ hmem) Bool.false_ne_true
  | imported himport hread =>
    have href := h _ himport
    simp only [hread, bne_self_eq_false, Bool.false_or, Option.all_some] at href
    rw [href, Bool.or_true]

def referringStyles : String :=
  "@import \"theme.css\" theme(reference); " ++
    ".a \x7b color: var(--color-x); animation: spin 1s; \x7d"

def referredStyles : String :=
  "@theme static \x7b --color-x: red; @keyframes spin \x7b to \x7b opacity: 0; \x7d \x7d \x7d"

def themeFiles : Resolver := .ofTables [("theme.css", referredStyles)] []

end Compiler

end UtilityCss
