import UtilityCss.Proofs.Variant.Reading
import UtilityCss.Proofs.Variant.Registry

/-!
# Where the wrapped nodes go

A variant that is no compound keeps the nodes that it wraps: in the block of its innermost wrapper, or
in each slot of its body. A compound changes what the variant inside it wraps around nothing, and puts
the nodes into the blocks that are empty then. It loses them exactly where a body leaves no block empty
without its slots.
-/

namespace UtilityCss

def Node.isEmptyBlock : Node → Bool
  | .rule _ ns => ns.isEmpty
  | .atRule _ _ ns => ns.isEmpty
  | _ => false

/-- Whether a block of a forest is empty. -/
def HasRoom (ns : List Node) : Prop := ∃ n ∈ allNodes ns, n.isEmptyBlock

instance : DecidablePred HasRoom :=
  fun ns => inferInstanceAs (Decidable (∃ n ∈ allNodes ns, n.isEmptyBlock = true))

/-- Whether nodes stand next to each other in a forest, at any depth, in their order. -/
def HoldsRun (run ns : List Node) : Prop := run <:+: ns ∨ ∃ n ∈ allNodes ns, run <:+: n.children

def HasBlock (run ns : List Node) : Prop :=
  ∃ n ∈ allNodes ns, n.children = run ∧ n.isEmptyBlock = run.isEmpty

/-- The body of a variant with nodes in the place of every slot. -/
def fillSlots (run nodes : List Node) : List Node :=
  replaceEach (fun n => if n.isAt "slot" then some run else none) nodes

namespace Variant

def innermost : Variant → Variant
  | compound _ _ inner => inner.innermost
  | v => v

def isCompound : Variant → Bool
  | compound _ _ _ => true
  | _ => false

end Variant

def VariantRule.body? : VariantRule → Option (List Node)
  | body nodes => some nodes
  | _ => none

namespace Variants

/-- Whether all compounds of a variant may stand around what is inside them. -/
def Allows (vs : Variants) : Variant → Prop
  | .compound root _ inner => vs.compoundsWith root inner ∧ vs.Allows inner
  | _ => True

/-- The body that declares the variant inside all compounds of a variant, if one does. -/
def innermostBody? (vs : Variants) (v : Variant) : Option (List Node) :=
  (v.innermost.root?.bind vs.get?).bind (·.rule.body?)

/-- What a compound makes of the wrappers of the variant inside it, before any nodes are put in. -/
def frame? (vs : Variants) (root : String) (modifier : Option Argument) (inner : Variant) :
    Option (List Node) := do
  let e ← vs.get? root
  let wrapped ← vs.wrapWithin (some root) inner []
  if root == "not" && wrapped.length > 1 then none else wrapped.mapM (e.rule.change modifier)

end Variants

section Forest

variable {n : Node} {ns ms run body : List Node}

theorem hasRoom_cons : HasRoom (n :: ns) ↔ n.isEmptyBlock ∨ HasRoom n.children ∨ HasRoom ns := by
  simp only [HasRoom, allNodes_cons, List.mem_cons, List.mem_append, or_and_right, exists_or,
    exists_eq_left]

theorem HoldsRun.of_children (h : HoldsRun run n.children) : HoldsRun run (n :: ns) := by
  right
  rcases h with h | ⟨m, hm, h⟩
  · exact ⟨n, by rw [allNodes_cons]; exact List.mem_cons_self, h⟩
  · refine ⟨m, ?_, h⟩
    rw [allNodes_cons]
    exact List.mem_cons_of_mem _ (List.mem_append_left _ hm)

theorem HoldsRun.append_left (h : HoldsRun run ns) (ms : List Node) : HoldsRun run (ms ++ ns) := by
  refine h.imp (fun h => h.trans (List.suffix_append ms ns).isInfix) ?_
  rintro ⟨m, hm, h⟩
  exact ⟨m, by rw [allNodes_append]; exact List.mem_append_right _ hm, h⟩

private theorem HoldsRun.append_right (h : HoldsRun run ns) (ms : List Node) :
    HoldsRun run (ns ++ ms) := by
  refine h.imp (fun h => h.trans (List.prefix_append ns ms).isInfix) ?_
  rintro ⟨m, hm, h⟩
  exact ⟨m, by rw [allNodes_append]; exact List.mem_append_left _ hm, h⟩

theorem HasBlock.holdsRun (h : HasBlock run ns) : HoldsRun run ns := by
  obtain ⟨n, hn, rfl, -⟩ := h
  exact .inr ⟨n, hn, List.infix_rfl⟩

theorem HasBlock.hasRoom (h : HasBlock [] ns) : HasRoom ns := by
  obtain ⟨n, hn, -, hempty⟩ := h
  exact ⟨n, hn, hempty⟩

theorem hasBlock_rule (selector : String) (run : List Node) : HasBlock run [.rule selector run] :=
  ⟨_, mem_allNodes_of_mem List.mem_cons_self, rfl, rfl⟩

theorem hasBlock_atRule (name params : String) (run : List Node) :
    HasBlock run [.atRule name params run] :=
  ⟨_, mem_allNodes_of_mem List.mem_cons_self, rfl, rfl⟩

theorem HasBlock.trans (h : HasBlock run ns) (h' : HasBlock ns ms) : HasBlock run ms := by
  obtain ⟨n, hn, hrun⟩ := h
  obtain ⟨m, hm, rfl, -⟩ := h'
  exact ⟨n, (allNodes_children_sublist hm).subset hn, hrun⟩

theorem Node.fill_eq (n : Node) :
    n.fill body = n.withChildren (if n.children.isEmpty then body else fillEach body n.children) := by
  cases n <;> rfl

theorem IsOfHead.fillEach {P : Node → Prop} (hP : IsOfHead P) (h : ∀ m ∈ allNodes ns, P m)
    (hbody : ∀ m ∈ allNodes body, P m) : ∀ m ∈ allNodes (fillEach body ns), P m := by
  induction ns using forest_induction with
  | nil => exact h
  | cons n ns ihn ih =>
    obtain ⟨hn, hinner, hns⟩ := forall_allNodes_cons.1 h
    have hblock : ∀ m ∈ allNodes (if n.children.isEmpty then body else
        UtilityCss.fillEach body n.children), P m := by
      split
      · exact hbody
      · exact ihn hinner
    rw [UtilityCss.fillEach, Node.fill_eq, ← List.singleton_append, forall_allNodes_append]
    exact ⟨hP.withChildren hn hblock, ih hns⟩

theorem holdsRun_fillEach (h : HasRoom ns) : HoldsRun body (fillEach body ns) := by
  induction ns using forest_induction with
  | nil =>
    obtain ⟨n, hn, -⟩ := h
    exact absurd hn List.not_mem_nil
  | cons n ns ihn ih =>
    rw [fillEach]
    rcases hasRoom_cons.1 h with h | h | h
    · refine HoldsRun.of_children ?_
      cases n with
      | rule sel inner =>
        rw [Node.isEmptyBlock] at h
        rw [Node.fill, if_pos h]
        exact .inl List.infix_rfl
      | atRule name params inner =>
        rw [Node.isEmptyBlock] at h
        rw [Node.fill, if_pos h]
        exact .inl List.infix_rfl
      | _ => exact absurd h Bool.false_ne_true
    · have hne : n.children.isEmpty = false := by
        obtain ⟨m, hm, -⟩ := h
        rw [List.isEmpty_eq_false_iff]
        intro hnil
        rw [hnil] at hm
        exact absurd hm List.not_mem_nil
      refine HoldsRun.of_children ?_
      rw [Node.fill_eq, hne]
      cases n with
      | rule => exact ihn h
      | atRule => exact ihn h
      | _ => exact absurd hne.symm Bool.false_ne_true
    · exact (ih h).append_left [n.fill body]

theorem fillEach_eq_self (h : ¬ HasRoom ns) : fillEach body ns = ns := by
  induction ns using forest_induction with
  | nil => rfl
  | cons n ns ihn ih =>
    rw [hasRoom_cons, not_or, not_or] at h
    obtain ⟨hempty, hinner, hns⟩ := h
    rw [fillEach, ih hns]
    congr 1
    cases n with
    | rule sel inner =>
      rw [Node.isEmptyBlock] at hempty
      rw [Node.fill, if_neg hempty]
      exact congrArg _ (ihn hinner)
    | atRule name params inner =>
      rw [Node.isEmptyBlock] at hempty
      rw [Node.fill, if_neg hempty]
      exact congrArg _ (ihn hinner)
    | _ => rfl

@[simp]
theorem fillEach_nil (ns : List Node) : fillEach [] ns = ns := by
  induction ns using forest_induction with
  | nil => rfl
  | cons n ns ihn ih =>
    have hinner : (if n.children.isEmpty then [] else fillEach [] n.children) = n.children := by
      split
      · next h => exact (List.isEmpty_iff.1 h).symm
      · exact ihn
    rw [fillEach, ih, Node.fill_eq, hinner]
    cases n <;> rfl

private theorem length_le_of_holdsRun (h : HoldsRun run ns) :
    run.length ≤ (allNodes ns).length := by
  rcases h with h | ⟨n, hn, h⟩
  · exact Nat.le_trans h.length_le (length_le_allNodes ns)
  · have hinner := Nat.le_trans h.length_le (length_le_allNodes n.children)
    exact Nat.le_trans hinner (allNodes_children_sublist hn).length_le

theorem HoldsRun.subset (h : HoldsRun run ns) : run ⊆ allNodes ns := by
  intro m hm
  rcases h with h | ⟨n, hn, h⟩
  · exact mem_allNodes_of_mem (h.subset hm)
  · exact (allNodes_children_sublist hn).subset (mem_allNodes_of_mem (h.subset hm))

theorem exists_not_holdsRun (ns : List Node) : ∃ run, ¬ HoldsRun run ns := by
  refine ⟨List.replicate ((allNodes ns).length + 1) (.comment ""), fun h => ?_⟩
  have := length_le_of_holdsRun h
  rw [List.length_replicate] at this
  omega

/-- Nodes are in a body with a slot as often as a slot is. -/
theorem holdsRun_fillSlots (h : (allNodes ns).any (·.isAt "slot")) :
    HoldsRun run (fillSlots run ns) := by
  induction ns using forest_induction with
  | nil => exact absurd h Bool.false_ne_true
  | cons n ns ihn ih =>
    rw [fillSlots, replaceEach, Node.replace_eq]
    cases hslot : n.isAt "slot" with
    | true => exact HoldsRun.append_right (.inl List.infix_rfl) _
    | false =>
      rw [allNodes_cons, List.any_cons, hslot, Bool.false_or, List.any_append, Bool.or_eq_true] at h
      rcases h with h | h
      · refine HoldsRun.of_children ?_
        cases n with
        | rule => exact ihn h
        | atRule => exact ihn h
        | _ => exact absurd h Bool.false_ne_true
      · exact HoldsRun.append_left (ih h) _

end Forest

section Rule

variable {r : VariantRule} {t : Theme} {value modifier : Option Argument} {n n' : Node}
  {ns ms : List Node}

theorem hasBlock_wrapAtRules {texts : List String} (h : wrapAtRules ns texts = some ms) :
    texts = [] ∧ ms = ns ∨ HasBlock ns ms := by
  cases texts with
  | nil => exact .inl ⟨rfl, (Option.some.inj h).symm⟩
  | cons text texts =>
    right
    induction texts generalizing text ms with
    | nil =>
      obtain ⟨inner, n, hinner, hn, rfl⟩ := wrapAtRules_cons_cases h
      cases hinner
      obtain ⟨p, -, rfl⟩ := Option.map_eq_some_iff.1 hn
      exact hasBlock_atRule _ _ _
    | cons text' texts ih =>
      obtain ⟨inner, n, hinner, hn, rfl⟩ := wrapAtRules_cons_cases h
      obtain ⟨p, -, rfl⟩ := Option.map_eq_some_iff.1 hn
      exact (ih text' hinner).trans (hasBlock_atRule _ _ _)

theorem hasBlock_wrapSelectors {list : List String} (h : wrapSelectors list ns = some ms) :
    list = [] ∧ ms = ns ∨ HasBlock ns ms := by
  rcases wrapSelectors_cases h with ⟨-, h⟩ | ⟨styles, -, -, h⟩
  · exact hasBlock_wrapAtRules h
  · right
    rcases hasBlock_wrapAtRules h with ⟨-, rfl⟩ | h
    · exact hasBlock_rule _ _
    · exact (hasBlock_rule _ _).trans h

/-- A variant that no body declares has a block for the nodes, or else no compound may stand around
it. -/
theorem hasBlock_wrap (hbody : r.body? = none) (h : r.wrap t value modifier ns = some ms) :
    r.produces = {} ∧ HoldsRun ns ms ∨ HasBlock ns ms := by
  cases VariantRule.wraps_of_wrap h with
  | selectors h =>
    refine (hasBlock_wrapSelectors h).imp_left ?_
    rintro ⟨rfl, rfl⟩
    exact ⟨rfl, .inl List.infix_rfl⟩
  | body => cases hbody
  | content selector =>
    refine .inl ⟨rfl, HoldsRun.of_children (.inl ?_)⟩
    exact List.infix_append _ _ _
  | directChildren | aria | data | nth => exact .inr (hasBlock_rule _ _)
  | block | breakpoint | container | supports => exact .inr (hasBlock_atRule _ _ _)

theorem children_change (h : r.change modifier n = some n') :
    n'.children = n.children ∧ n'.isEmptyBlock = n.isEmptyBlock := by
  cases VariantRule.changes_of_change h <;> exact ⟨rfl, rfl⟩

private theorem hasRoom_mapM_change (h : ns.mapM (r.change modifier) = some ms) :
    HasRoom ms ↔ HasRoom ns := by
  induction ns generalizing ms with
  | nil =>
    cases h
    exact Iff.rfl
  | cons n ns ih =>
    rw [List.mapM_cons] at h
    obtain ⟨n', hn', h⟩ := Option.bind_eq_some_iff.1 h
    obtain ⟨ns', hns', h⟩ := Option.bind_eq_some_iff.1 h
    cases h
    obtain ⟨hchildren, hempty⟩ := children_change hn'
    rw [hasRoom_cons, hasRoom_cons, hchildren, hempty, ih hns']

theorem eq_of_body? {nodes : List Node} (h : r.body? = some nodes) : r = .body nodes := by
  cases r with
  | body => exact congrArg _ (Option.some.inj h)
  | _ => cases h

end Rule

namespace Variants

variable {vs : Variants} {v : Variant} {parent : Option String} {ns ms : List Node}

theorem allows_of_readFrom? {input : List Char} (h : vs.readFrom? input = some v) :
    vs.Allows v := by
  have hwithin : input <:+: (String.ofList input).toList := by simp
  refine readFrom?_induction ?_ ?_ ?_ ?_ hwithin h
  · intro inner v _ h
    obtain ⟨selector, relative, rfl, -⟩ := readArbitraryVariant?_cases h
    trivial
  · intro root
    trivial
  · intro root value modifier _ _
    trivial
  · intro root modifier w _ hcompounds hw
    exact ⟨hcompounds, hw⟩

/-- A compound puts nodes into its frame. -/
theorem wrapWithin_compound (root : String) (modifier : Option Argument) (inner : Variant)
    (ns : List Node) : vs.wrapWithin parent (.compound root modifier inner) ns =
      (vs.frame? root modifier inner).map (fillEach ns) := by
  rw [wrapWithin, frame?]
  cases vs.get? root with
  | none => rfl
  | some e =>
    change (vs.wrapWithin (some root) inner []).bind _ =
      ((vs.wrapWithin (some root) inner []).bind _).map _
    cases vs.wrapWithin (some root) inner [] with
    | none => rfl
    | some wrapped =>
      dsimp only [Option.bind_some]
      split
      · rfl
      · cases wrapped.mapM (e.rule.change modifier) <;> rfl

theorem hasRoom_frame? {root : String} {modifier : Option Argument} {P : Prop}
    (hinner : ∀ {ms}, vs.wrapWithin (some root) v [] = some ms → (HasRoom ms ↔ P))
    (h : vs.frame? root modifier v = some ms) : HasRoom ms ↔ P := by
  obtain ⟨e, -, h⟩ := Option.bind_eq_some_iff.1 h
  obtain ⟨wrapped, hwrapped, h⟩ := Option.bind_eq_some_iff.1 h
  obtain ⟨-, h⟩ := Option.ite_none_left_eq_some.1 h
  exact (hasRoom_mapM_change h).trans (hinner hwrapped)

theorem hasBlock_arbitrary {selector : String} {relative : Bool}
    (h : vs.wrapWithin parent (.arbitrary selector relative) ns = some ms) : HasBlock ns ms := by
  rw [wrapWithin] at h
  obtain ⟨-, h⟩ := Option.ite_none_left_eq_some.1 h
  split at h
  · obtain ⟨n, hn, rfl⟩ := Option.map_eq_some_iff.1 h
    obtain ⟨p, -, rfl⟩ := Option.map_eq_some_iff.1 hn
    exact hasBlock_atRule _ _ _
  · cases h
    exact hasBlock_rule _ _

/-- The rule of a variant that is no compound leaves room, unless it is a body that does not. -/
theorem hasRoom_wrap {value modifier : Option Argument} {root : String} {e : VariantEntry}
    (hroot : v.root? = some root) (hinnermost : v.innermost = v) (he : vs.get? root = some e)
    (hproduces : vs.produces? v ≠ some {})
    (h : e.rule.wrap vs.theme value modifier [] = some ms) :
    HasRoom ms ↔ ∀ nodes ∈ vs.innermostBody? v, HasRoom (fillSlots [] nodes) := by
  have hbody? : vs.innermostBody? v = e.rule.body? := by
    rw [innermostBody?, hinnermost, hroot, Option.bind_some, he, Option.bind_some]
  rw [hbody?]
  cases hbody : e.rule.body? with
  | none =>
    refine ⟨fun _ => nofun, fun _ => ?_⟩
    rcases hasBlock_wrap hbody h with ⟨hnone, -⟩ | hblock
    · exact absurd (by rw [produces_eq hroot he, hnone]) hproduces
    · exact hblock.hasRoom
  | some nodes =>
    rw [eq_of_body? hbody] at h
    cases h
    refine ⟨fun hroom => ?_, fun hroom => hroom nodes rfl⟩
    rintro _ ⟨⟩
    exact hroom

/-- The wrappers around nothing have an empty block, unless a body has more than slots in all of its
blocks: by induction on the compounds, which keep the blocks. -/
theorem hasRoom_wrapWithin (hv : vs.Allows v) (hproduces : vs.produces? v ≠ some {})
    (h : vs.wrapWithin parent v [] = some ms) :
    HasRoom ms ↔ ∀ nodes ∈ vs.innermostBody? v, HasRoom (fillSlots [] nodes) := by
  induction v generalizing parent ms with
  | static root =>
    obtain ⟨e, he, h⟩ := Option.bind_eq_some_iff.1 h
    exact hasRoom_wrap rfl rfl he hproduces h
  | functional root value modifier =>
    obtain ⟨e, he, h⟩ := Option.bind_eq_some_iff.1 h
    exact hasRoom_wrap rfl rfl he hproduces h
  | compound root modifier inner ih =>
    rw [wrapWithin_compound] at h
    obtain ⟨frame, hframe, rfl⟩ := Option.map_eq_some_iff.1 h
    rw [fillEach_nil]
    exact hasRoom_frame? (fun hw => ih hv.2 (produces_ne_of_compoundsWith hv.1) hw) hframe
  | arbitrary selector relative =>
    have hblock := hasBlock_arbitrary h
    exact ⟨fun _ => nofun, fun _ => hblock.hasRoom⟩

def HasSlots (vs : Variants) : Prop :=
  vs.AllRules fun _ rule => ∀ nodes ∈ rule.body?, (allNodes nodes).any (·.isAt "slot")

private theorem body?_builtinRules (t : Theme) (dark : DarkMode) :
    ∀ p ∈ builtinRules t dark, p.2.body? = none :=
  forall_builtinRules (P := fun _ rule => rule.body? = none) (by decide) (fun _ _ => rfl) rfl

theorem Extends.hasSlots {t : Theme} {dark : DarkMode} (h : (builtin t dark).Extends vs) :
    vs.HasSlots := by
  refine h.allRules ?_ (fun _ _ => nofun) ?_
  · refine allRules_builtin fun p hp nodes hnodes => ?_
    rw [body?_builtinRules t dark p hp] at hnodes
    cases hnodes
  · rintro name nodes hslot _ ⟨⟩
    exact hslot

theorem HasSlots.holdsRun_wrap {value modifier : Option Argument} {root : String} {e : VariantEntry}
    (hvs : vs.HasSlots) (he : vs.get? root = some e)
    (h : e.rule.wrap vs.theme value modifier ns = some ms) : HoldsRun ns ms := by
  cases hbody : e.rule.body? with
  | none => exact (hasBlock_wrap hbody h).elim And.right HasBlock.holdsRun
  | some nodes =>
    have hslot := hvs.get? he nodes hbody
    rw [eq_of_body? hbody] at h
    cases h
    exact holdsRun_fillSlots hslot

/-- A variant keeps the nodes that it wraps, whatever they are, exactly if it is no compound around a
body in which every block holds more than slots. -/
theorem holdsRun_wrap_iff {t : Theme} {dark : DarkMode} {s : String}
    (hvs : (builtin t dark).Extends vs) (hread : vs.read? s = some v) :
    (∀ ns ms, vs.wrap v ns = some ms → HoldsRun ns ms) ↔
      (v.isCompound → (vs.wrap v []).isSome →
        ∀ nodes ∈ vs.innermostBody? v, HasRoom (fillSlots [] nodes)) := by
  have hallows : vs.Allows v := allows_of_readFrom? hread
  cases v with
  | static root =>
    refine ⟨fun _ => nofun, fun _ ns ms h => ?_⟩
    obtain ⟨e, he, h⟩ := Option.bind_eq_some_iff.1 h
    exact hvs.hasSlots.holdsRun_wrap he h
  | functional root value modifier =>
    refine ⟨fun _ => nofun, fun _ ns ms h => ?_⟩
    obtain ⟨e, he, h⟩ := Option.bind_eq_some_iff.1 h
    exact hvs.hasSlots.holdsRun_wrap he h
  | arbitrary selector relative =>
    exact ⟨fun _ => nofun, fun _ ns ms h => (hasBlock_arbitrary h).holdsRun⟩
  | compound root modifier inner =>
    have hroom {frame : List Node} (h : vs.frame? root modifier inner = some frame) :
        HasRoom frame ↔ ∀ nodes ∈ vs.innermostBody? inner, HasRoom (fillSlots [] nodes) :=
      hasRoom_frame? (hasRoom_wrapWithin hallows.2 (produces_ne_of_compoundsWith hallows.1)) h
    simp only [wrap, wrapWithin_compound]
    constructor
    · intro hkeep _ hsome
      obtain ⟨_, hnone⟩ := Option.isSome_iff_exists.1 hsome
      obtain ⟨frame, hframe, -⟩ := Option.map_eq_some_iff.1 hnone
      refine (hroom hframe).1 (Classical.byContradiction fun hfull => ?_)
      obtain ⟨run, hrun⟩ := exists_not_holdsRun frame
      refine hrun (hkeep run frame ?_)
      rw [hframe, Option.map_some, fillEach_eq_self hfull]
    · intro h ns ms hms
      obtain ⟨frame, hframe, rfl⟩ := Option.map_eq_some_iff.1 hms
      refine holdsRun_fillEach ((hroom hframe).2 (h rfl ?_))
      rw [hframe]
      rfl

def withPressed (nodes : List Node) : Variants :=
  (builtin {} .media).register "pressed" (.body nodes)

theorem extends_withPressed {nodes : List Node} (h : (allNodes nodes).any (·.isAt "slot")) :
    (builtin {} .media).Extends (withPressed nodes) := .body .refl "pressed" nodes h

/-- Nothing is lost around a body whose block has nothing but a slot. -/
theorem holdsRun_wrap_iff_alone :
    ∃ vs v, (builtin {} .media).Extends vs ∧ vs.read? "group-pressed" = some v ∧ v.isCompound ∧
      (vs.wrap v []).isSome ∧ ∀ ns ms, vs.wrap v ns = some ms → HoldsRun ns ms := by
  let vs := withPressed [.rule "&:active" [.statement "slot" ""]]
  let v : Variant := .compound "group" none (.static "pressed")
  have hvs : (builtin {} .media).Extends vs := extends_withPressed (by decide)
  obtain ⟨hread, hsome, hroom⟩ : vs.read? "group-pressed" = some v ∧ (vs.wrap v []).isSome ∧
      (vs.innermostBody? v).all (HasRoom <| fillSlots [] ·) = true := by
    decide +kernel
  refine ⟨vs, v, hvs, hread, rfl, hsome, (holdsRun_wrap_iff hvs hread).2 fun _ _ nodes hnodes => ?_⟩
  exact of_decide_eq_true ((Option.all_eq_true _ _).1 hroom nodes hnodes)

/-- Nodes are lost around a body that has a declaration beside its slot. -/
theorem not_holdsRun_wrap_beside :
    ∃ vs v ns ms, (builtin {} .media).Extends vs ∧ vs.read? "group-pressed" = some v ∧
      vs.wrap v ns = some ms ∧ ¬ HoldsRun ns ms := by
  let vs := withPressed [.rule "&:active" [.plain "color" "red", .statement "slot" ""]]
  let v : Variant := .compound "group" none (.static "pressed")
  have hvs : (builtin {} .media).Extends vs := extends_withPressed (by decide)
  obtain ⟨hread, hlost⟩ : vs.read? "group-pressed" = some v ∧
      (vs.wrap v [.comment "kept"]).any (fun ms => (allNodes ms).all (!·.isComment)) = true := by
    decide +kernel
  obtain ⟨ms, hms, hall⟩ := (Option.any_eq_true _ _).1 hlost
  refine ⟨vs, v, _, ms, hvs, hread, hms, fun hholds => ?_⟩
  have hmem := hholds.subset List.mem_cons_self
  exact Bool.false_ne_true (List.all_eq_true.1 hall _ hmem)

end Variants

end UtilityCss
