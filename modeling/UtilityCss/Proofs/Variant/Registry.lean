import UtilityCss.Design.Declaration
import UtilityCss.Proofs.Stylesheet.Replace
import UtilityCss.Variant.Builtin

/-!
# Registries and what is declared in them

What holds of all rules of a registry is kept by registering a rule of which it holds. Stylesheets
and plugins extend the built-in registry by variants of two forms: selectors and at-rules, or a body
with a slot.
-/

namespace UtilityCss

namespace Variants

def AllRules (P : String → VariantRule → Prop) (vs : Variants) : Prop :=
  ∀ e ∈ vs.entries, P e.name e.rule

/-- The registries that declarations make of a given one. -/
inductive Extends (vs : Variants) : Variants → Prop
  | refl : Extends vs vs
  | selectors {ws} (h : Extends vs ws) (name : String) (list : List String) :
      Extends vs (ws.register name (.selectors list))
  | body {ws} (h : Extends vs ws) (name : String) (nodes : List Node)
      (hslot : (allNodes nodes).any (·.isAt "slot")) :
      Extends vs (ws.register name (.body nodes))

/-- The rules that the built-in variants are registered with. -/
def builtinRules (t : Theme) (dark : DarkMode) : List (String × VariantRule) :=
  pseudoElementVariants ++ structureVariants ++ stateVariants ++ compoundVariants ++
    attributeVariants ++ breakpointVariants t ++ containerVariants ++ mediaVariants dark

variable {P : String → VariantRule → Prop} {vs ws : Variants} {name : String} {rule : VariantRule}
  {rules : List (String × VariantRule)} {e : VariantEntry}

theorem mem_of_get? (h : vs.get? name = some e) : e ∈ vs.entries ∧ e.name = name :=
  ⟨List.mem_of_find?_eq_some h, eq_of_beq (List.find?_some h :)⟩

theorem AllRules.get? (hvs : vs.AllRules P) (h : vs.get? name = some e) : P name e.rule := by
  obtain ⟨he, rfl⟩ := mem_of_get? h
  exact hvs e he

theorem AllRules.put (hvs : vs.AllRules P) (hrule : P name rule) (order : Nat) :
    (vs.put name rule order).AllRules P := by
  intro e he
  rw [Variants.put] at he
  split at he
  · obtain ⟨e', he', rfl⟩ := List.mem_map.1 he
    split
    · next hname =>
      rw [eq_of_beq hname]
      exact hrule
    · exact hvs e' he'
  · rcases List.mem_append.1 he with he | he
    · exact hvs e he
    · obtain rfl := List.mem_singleton.1 he
      exact hrule

theorem AllRules.register (hvs : vs.AllRules P) (hrule : P name rule) :
    (vs.register name rule).AllRules P :=
  hvs.put hrule vs.nextOrder

theorem AllRules.registerAll (hvs : vs.AllRules P) (hrules : ∀ p ∈ rules, P p.1 p.2) :
    (vs.registerAll rules).AllRules P :=
  List.foldlRecOn rules _ hvs fun _ hws p hp => hws.register (hrules p hp)

theorem AllRules.registerGroup (hvs : vs.AllRules P) (ranking : SizeRanking)
    (hrules : ∀ p ∈ rules, P p.1 p.2) : (vs.registerGroup ranking rules).AllRules P := by
  have hput : (rules.foldl (fun ws p => ws.put p.1 p.2 vs.nextOrder) vs).AllRules P :=
    List.foldlRecOn rules _ hvs fun _ hws p hp => hws.put (hrules p hp) vs.nextOrder
  exact hput

/-- What holds of the rules that the built-in variants are registered with holds of the registry. -/
theorem allRules_builtin {t : Theme} {dark : DarkMode} (h : ∀ p ∈ builtinRules t dark, P p.1 p.2) :
    (builtin t dark).AllRules P := by
  simp only [builtinRules, List.forall_mem_append] at h
  obtain ⟨⟨⟨⟨⟨⟨⟨hpseudo, hstructure⟩, hstate⟩, hcompound⟩, hattribute⟩, hbreakpoint⟩, hcontainer⟩,
    hmedia⟩ := h
  have hempty : AllRules P { theme := t } := nofun
  exact ((((((((hempty.registerAll hpseudo).registerAll hstructure).registerAll hstate).registerAll
    hcompound).registerAll hattribute).registerGroup _ hbreakpoint).registerGroup _
    hcontainer).registerAll hmedia)

/-- What holds of the rules that are built in whatever the theme is, of the breakpoints of the theme
and of `dark` holds of all built-in rules. -/
theorem forall_builtinRules {t : Theme} {dark : DarkMode}
    (hfixed : ∀ p ∈ builtinRules {} .media, P p.1 p.2)
    (hbreakpoint : ∀ p ∈ t.members "--breakpoint",
      P p.1 (.block "media" ("(width >= " ++ p.2.value ++ ")")))
    (hdark : P "dark" (.selectors dark.selectors)) : ∀ p ∈ builtinRules t dark, P p.1 p.2 := by
  simp only [builtinRules, breakpointVariants, mediaVariants, List.forall_mem_append] at hfixed ⊢
  obtain ⟨⟨⟨hrest, -, hwidth⟩, hcontainer⟩, ⟨hmedia, -⟩, hmedia'⟩ := hfixed
  refine ⟨⟨⟨hrest, fun p hp => ?_, hwidth⟩, hcontainer⟩, ⟨hmedia, ?_⟩, hmedia'⟩
  · obtain ⟨q, hq, rfl⟩ := List.mem_map.1 hp
    exact hbreakpoint q hq
  · exact List.forall_mem_singleton.2 hdark

theorem theme_put (vs : Variants) (name : String) (rule : VariantRule) (order : Nat) :
    (vs.put name rule order).theme = vs.theme := by
  rw [put]
  split <;> rfl

theorem theme_builtin (t : Theme) (dark : DarkMode) : (builtin t dark).theme = t := by
  have hall (vs : Variants) (rules : List (String × VariantRule)) :
      (vs.registerAll rules).theme = vs.theme := by
    rw [registerAll]
    refine List.foldlRecOn (motive := fun ws : Variants => ws.theme = vs.theme) rules _ rfl
      fun ws hws p _ => ?_
    exact (theme_put ws p.1 p.2 ws.nextOrder).trans hws
  have hgroup (vs : Variants) (ranking : SizeRanking) (rules : List (String × VariantRule)) :
      (vs.registerGroup ranking rules).theme = vs.theme := by
    rw [registerGroup]
    refine List.foldlRecOn (motive := fun ws : Variants => ws.theme = vs.theme) rules _ rfl
      fun ws hws p _ => ?_
    exact (theme_put ws p.1 p.2 vs.nextOrder).trans hws
  simp only [builtin, hall, hgroup]

/-- Declarations keep what holds of the rules that can be declared. -/
theorem Extends.allRules (h : vs.Extends ws) (hvs : vs.AllRules P)
    (hselectors : ∀ name list, P name (.selectors list))
    (hbody : ∀ name nodes, (allNodes nodes).any (·.isAt "slot") → P name (.body nodes)) :
    ws.AllRules P := by
  induction h with
  | refl => exact hvs
  | selectors _ name list ih => exact ih.register (hselectors name list)
  | body _ name nodes hslot ih => exact ih.register (hbody name nodes hslot)

theorem Extends.trans {us : Variants} (h : vs.Extends ws) (h' : ws.Extends us) : vs.Extends us := by
  induction h' with
  | refl => exact h
  | selectors _ name list ih => exact ih.selectors name list
  | body _ name nodes hslot ih => exact ih.body name nodes hslot

/-- What a stylesheet declares is a list of selectors, or a body with a slot as it is written. -/
theorem readVariantDeclaration_cases {params : String} {body? : Option (List Node)}
    (h : readVariantDeclaration params body? = .ok (name, rule)) :
    (∃ list, rule = .selectors list) ∨
      ∃ nodes, body? = some nodes ∧ rule = .body nodes ∧ (allNodes nodes).any (·.isAt "slot") := by
  rw [readVariantDeclaration] at h
  dsimp only at h
  split at h
  · cases h
  · cases body? with
    | none =>
      obtain ⟨declared, hdeclared, heq⟩ := map_eq_ok.1 h
      cases heq
      rw [readVariantSelectors] at hdeclared
      split at hdeclared
      · cases hdeclared
      · dsimp only at hdeclared
        split at hdeclared
        · cases hdeclared
        · cases hdeclared
          exact .inl ⟨_, rfl⟩
    | some nodes =>
      dsimp only at h
      split at h
      · cases h
      · split at h
        · next hslot =>
          cases h
          exact .inr ⟨nodes, rfl, rfl, hslot⟩
        · cases h

private theorem extends_of_readVariantDeclaration {params : String} {body? : Option (List Node)}
    (h : readVariantDeclaration params body? = .ok (name, rule)) :
    vs.Extends (vs.register name rule) := by
  obtain ⟨list, rfl⟩ | ⟨nodes, -, rfl, hslot⟩ := readVariantDeclaration_cases h
  · exact .selectors .refl name list
  · exact .body .refl name nodes hslot

end Variants

theorem Node.children_of_directive? {n : Node} {list : List String} {params : String} {body : List Node}
    (h : n.directive? list = some (params, some body)) : n.children = body := by
  rw [Node.directive?.eq_def] at h
  split at h
  · obtain ⟨-, h⟩ := Option.ite_none_right_eq_some.1 h
    cases h
    rfl
  · obtain ⟨-, h⟩ := Option.ite_none_right_eq_some.1 h
    cases h
  · cases h

/-- Whether a node of a stylesheet declares a variant. -/
def Node.DeclaresVariant (n : Node) (name : String) (rule : VariantRule) : Prop :=
  ∃ params body?, n.variantDeclaration? = some (params, body?) ∧
    readVariantDeclaration params body? = .ok (name, rule)

namespace DesignSystem

variable {d d' : DesignSystem} {ns : List Node}

theorem variants_builtin (t : Theme) (dark : DarkMode) :
    (builtin t dark).variants = Variants.builtin t dark :=
  rfl

/-- Declaring variants keeps the theme and the utilities, and what each declaration keeps of the
variants. -/
theorem declareVariants_invariant {I : Variants → Prop} (hvs : I d.variants)
    (hstep : ∀ n ∈ ns, ∀ vs name rule, I vs → n.DeclaresVariant name rule → I (vs.register name rule))
    (h : d.declareVariants ns = .ok d') :
    d'.theme = d.theme ∧ d'.utilities = d.utilities ∧ I d'.variants := by
  refine foldlM_invariant
    (P := fun d' => d'.theme = d.theme ∧ d'.utilities = d.utilities ∧ I d'.variants)
    ?_ ⟨rfl, rfl, hvs⟩ h
  rintro ⟨params, body⟩ hp d₁ d₂ ⟨htheme, hutilities, hvs₁⟩ hd₂
  obtain ⟨n, hn, hdeclares⟩ := List.mem_filterMap.1 hp
  obtain ⟨⟨name, rule⟩, hread, hd₂⟩ := bind_eq_ok.1 hd₂
  cases hd₂
  exact ⟨htheme, hutilities,
    hstep n hn d₁.variants name rule hvs₁ ⟨params, body, hdeclares, mapError_eq_ok.1 hread⟩⟩

theorem stores_declareVariants (h : d.declareVariants ns = .ok d') :
    d'.theme = d.theme ∧ d'.utilities = d.utilities ∧ d'.variants.theme = d.variants.theme :=
  declareVariants_invariant (I := fun vs => vs.theme = d.variants.theme) rfl
    (fun _ _ vs name rule hvs _ => (Variants.theme_put vs name rule vs.nextOrder).trans hvs) h

theorem allRules_declareVariants {P : String → VariantRule → Prop} (hvs : d.variants.AllRules P)
    (hrules : ∀ n ∈ ns, ∀ name rule, n.DeclaresVariant name rule → P name rule)
    (h : d.declareVariants ns = .ok d') : d'.variants.AllRules P :=
  (declareVariants_invariant (I := (·.AllRules P)) hvs
    (fun n hn _ name rule hvs hdeclares => hvs.register (hrules n hn name rule hdeclares)) h).2.2

/-- The variants that nodes of a stylesheet declare extend a registry. -/
theorem extends_declareVariants (h : d.declareVariants ns = .ok d') :
    d.variants.Extends d'.variants := by
  refine (declareVariants_invariant .refl ?_ h).2.2
  rintro n - vs name rule hvs ⟨params, body, -, hread⟩
  exact hvs.trans (Variants.extends_of_readVariantDeclaration hread)

end DesignSystem

end UtilityCss
