import UtilityCss.Proofs.Variant.Slot
import UtilityCss.Variant.Order
import UtilityCss.Variant.Parser
import UtilityCss.Variant.Wrap

/-!
# Rules that act alike

Two rules act alike if they differ at most in what they produce, and so in the compounds that may
stand around them. Where one takes the place of the other in a registry, all variants keep their
order and what they wrap. A text may be read as a variant in one of the registries only; nothing
comes of that if the compounds that are allowed there alone never wrap anything.
-/

namespace UtilityCss

/-- Whether two rules differ at most in what they produce. -/
structure VariantRule.Alike (r s : VariantRule) : Prop where
  kind : r.kind = s.kind
  accepts : r.accepts = s.accepts
  wrap : ∀ t value modifier ns, r.wrap t value modifier ns = s.wrap t value modifier ns
  change : ∀ modifier n, r.change modifier n = s.change modifier n

structure VariantEntry.Alike (e f : VariantEntry) : Prop where
  order : e.order = f.order
  rule : e.rule.Alike f.rule

/-- Whether two registries have the same variants at the same places, with rules that act alike. -/
structure Variants.Alike (vs ws : Variants) : Prop where
  theme : vs.theme = ws.theme
  rankings : vs.rankings = ws.rankings
  nextOrder : vs.nextOrder = ws.nextOrder
  get? : ∀ name, Option.Rel VariantEntry.Alike (vs.get? name) (ws.get? name)

namespace Variants

/-- Whether a variant wraps no nodes, whatever it stands in. -/
def Refuses (vs : Variants) (v : Variant) : Prop := ∀ parent ns, vs.wrapWithin parent v ns = none

/-- Whether both registries allow the same compounds around the variants that the first one allows,
apart from some that only the first one allows and that refuse all nodes. -/
def AllowsAlike (vs ws : Variants) : Prop :=
  ∀ root inner, vs.Allows inner → vs.compoundsWith root inner = ws.compoundsWith root inner ∨
    ws.compoundsWith root inner = false ∧ ∀ modifier, vs.Refuses (.compound root modifier inner)

/-- Whether two readings are the same, or only the first one gives a variant and that refuses all
nodes. -/
def ReadsAlike (vs : Variants) (read read' : Option Variant) : Prop :=
  read = read' ∨ read' = none ∧ ∀ v ∈ read, vs.Refuses v

end Variants

theorem VariantRule.Alike.refl (r : VariantRule) : r.Alike r :=
  ⟨rfl, rfl, fun _ _ _ _ => rfl, fun _ _ => rfl⟩

namespace Variants

variable {vs ws : Variants} {name root : String} {rule rule' : VariantRule}

theorem produces?_of_root? {v : Variant} (h : v.root? = some root) :
    vs.produces? v = (vs.get? root).map (·.rule.produces) := by
  cases v with
  | arbitrary => cases h
  | static => cases h; rfl
  | functional => cases h; rfl
  | compound => cases h; rfl

/-- A variant that is registered has its rule, at the place that it had or else at the next one. -/
theorem get?_register (vs : Variants) (name : String) (rule : VariantRule) (n : String) :
    (vs.register name rule).get? n =
      if n = name then some ⟨name, rule, vs.orderOf (.static name)⟩ else vs.get? n := by
  have horder : vs.orderOf (.static name) = ((vs.get? name).map (·.order)).getD vs.nextOrder := rfl
  rw [get?, horder, register, put, has]
  cases hget : vs.get? name with
  | none =>
    change (vs.entries ++ [(⟨name, rule, vs.nextOrder⟩ : VariantEntry)]).find? (·.name == n) = _
    rw [List.find?_append]
    split
    · next hn =>
      subst hn
      rw [show vs.entries.find? (·.name == n) = none from hget]
      simp
    · next hn => simp [get?, Ne.symm hn]
  | some e =>
    change (vs.entries.map fun e => if e.name == name then { e with rule } else e).find?
      (·.name == n) = _
    have hname : (fun e : VariantEntry => (if e.name == name then { e with rule } else e).name == n) =
        fun e => e.name == n := by
      funext e
      split <;> rfl
    rw [List.find?_map, Function.comp_def, hname]
    split
    · next hn =>
      subst hn
      rw [show vs.entries.find? (·.name == n) = some e from hget]
      simp [(mem_of_get? hget).2]
    · next hn =>
      change (vs.get? n).map _ = vs.get? n
      cases hget' : vs.get? n with
      | none => rfl
      | some f => simp [(mem_of_get? hget').2, hn]

theorem produces?_register {v : Variant} (hv : v.root? = some name) :
    (vs.register name rule).produces? v = some rule.produces := by
  rw [produces?_of_root? hv, get?_register, if_pos rfl]
  rfl

theorem produces?_register_of_ne {v : Variant} (hv : v.root? ≠ some name) :
    (vs.register name rule).produces? v = vs.produces? v := by
  cases hroot : v.root? with
  | none =>
    cases v with
    | arbitrary selector relative => rfl
    | static => cases hroot
    | functional => cases hroot
    | compound => cases hroot
  | some root =>
    rw [produces?_of_root? hroot, produces?_of_root? hroot, get?_register, if_neg]
    rintro rfl
    exact hv hroot

theorem Alike.register (vs : Variants) (name : String) (h : rule.Alike rule') :
    (vs.register name rule).Alike (vs.register name rule') where
  theme := (theme_put vs name rule vs.nextOrder).trans (theme_put vs name rule' vs.nextOrder).symm
  rankings := by
    rw [Variants.register, Variants.register, put, put]
    split <;> rfl
  nextOrder := rfl
  get? n := by
    rw [get?_register, get?_register]
    split
    · exact .some ⟨rfl, h⟩
    · cases vs.get? n with
      | none => exact .none
      | some e => exact .some ⟨rfl, .refl _⟩

theorem Refuses.compound {v : Variant} (h : vs.Refuses v) (root : String)
    (modifier : Option Argument) : vs.Refuses (.compound root modifier v) := by
  intro parent ns
  rw [wrapWithin, h]
  cases vs.get? root <;> rfl

/-- A chain with a variant that refuses all nodes wraps none. -/
theorem wrapAll_eq_none {chain : List Variant} {v : Variant} (hmem : v ∈ chain) (hv : vs.Refuses v)
    (ns : List Node) : vs.wrapAll chain ns = none := by
  rw [wrapAll]
  have hmem : v ∈ chain.reverse := List.mem_reverse.2 hmem
  generalize chain.reverse = chain at hmem
  induction chain generalizing ns with
  | nil => exact absurd hmem List.not_mem_nil
  | cons w chain ih =>
    rw [List.foldlM_cons]
    rcases List.mem_cons.1 hmem with rfl | hmem
    · rw [wrap, hv]
      rfl
    · cases vs.wrap w ns with
      | none => rfl
      | some ms => exact ih ms hmem

/-- A compound is put together around a variant that it may stand around. -/
theorem assemble?_compound (hroot : vs.kind? root = some .compound) (value modifier : Option String)
    (inner : Option Variant) :
    vs.assemble? root value modifier inner = inner.bind fun v =>
      if vs.compoundsWith root v then (readOptional? modifier).map (.compound root · v) else none := by
  rw [assemble?, hroot]
  cases inner with
  | none => rfl
  | some v =>
    change (if vs.compoundsWith root v then _ else _) = _
    cases readOptional? modifier <;> rfl

private theorem readFrom?_bracketed {input : List Char} {inner : String}
    (h : between? "[" "]" (String.ofList input) = some inner) :
    vs.readFrom? input = readArbitraryVariant? inner := by
  rw [readFrom?, h]

/-- How a text without brackets around it is read, as steps that may each fail. -/
theorem readFrom?_named {input : List Char} (h : between? "[" "]" (String.ofList input) = none) :
    vs.readFrom? input = (Chars.splitModifier? input).bind fun p =>
      (Chars.findRoots (fun root => vs.has (String.ofList root)) p.1).head?.bind fun q =>
        vs.assemble? (String.ofList q.1) (q.2.map String.ofList) (p.2.map String.ofList)
          (q.2.bind vs.readFrom?) := by
  fun_cases vs.readFrom? input with
  | case1 inner hinner => exact absurd (h.symm.trans hinner) nofun
  | case2 _ hsplit => rw [hsplit, Option.bind_none]
  | case3 _ name modifier hsplit known hroot =>
    rw [hsplit, Option.bind_some]
    exact (congrArg (Option.bind · _) hroot).symm
  | case4 _ name modifier hsplit known root value hroot =>
    rw [hsplit, Option.bind_some]
    refine Eq.trans ?_ (congrArg (Option.bind · _) hroot).symm
    cases value <;> rfl

section Alike

variable (h : vs.Alike ws)

include h

theorem Alike.bind_get? {α : Type} {f g : VariantEntry → Option α}
    (hfg : ∀ e e' : VariantEntry, e.Alike e' → f e = g e') (name : String) :
    (vs.get? name).bind f = (ws.get? name).bind g := by
  have hrel := h.get? name
  generalize vs.get? name = e, ws.get? name = e' at hrel ⊢
  cases hrel with
  | none => rfl
  | some hrel => exact hfg _ _ hrel

theorem Alike.map_get? {α : Type} {f : VariantEntry → α}
    (hf : ∀ e e' : VariantEntry, e.Alike e' → f e = f e') (name : String) :
    (vs.get? name).map f = (ws.get? name).map f := by
  rw [Option.map_eq_bind, Option.map_eq_bind]
  exact h.bind_get? (fun e e' hee' => congrArg some (hf e e' hee')) name

theorem Alike.has (name : String) : vs.has name = ws.has name := by
  have hmap := congrArg Option.isSome (h.map_get? (f := fun _ => ()) (fun _ _ _ => rfl) name)
  rwa [Option.isSome_map, Option.isSome_map] at hmap

theorem Alike.kind? (name : String) : vs.kind? name = ws.kind? name :=
  h.map_get? (fun _ _ hee' => hee'.rule.kind) name

theorem Alike.orderOf (v : Variant) : vs.orderOf v = ws.orderOf v := by
  rw [Variants.orderOf, Variants.orderOf, h.nextOrder]
  cases v.root? with
  | none => rfl
  | some root => exact congrArg (·.getD ws.nextOrder) (h.map_get? (fun _ _ hee' => hee'.order) root)

theorem Alike.compareSimple (a b : Variant) : vs.compareSimple a b = ws.compareSimple a b := by
  simp only [Variants.compareSimple, Variants.orderInGroup, h.orderOf, h.rankings, h.theme]

theorem Alike.compareCompound (a b : Variant) (m n : Option Argument) :
    vs.compareCompound a b m n = ws.compareCompound a b m n := by
  simp only [Variants.compareCompound, h.orderOf]

theorem Alike.compare (a b : Variant) : vs.compare a b = ws.compare a b := by
  fun_induction Variants.compare vs a b <;>
    simp_all [Variants.compare, h.compareSimple, h.compareCompound]

theorem Alike.compoundsWith {v : Variant} (hv : vs.produces? v = ws.produces? v) (root : String) :
    vs.compoundsWith root v = ws.compoundsWith root v := by
  have hrel := h.get? root
  rw [Variants.compoundsWith, Variants.compoundsWith, hv]
  generalize vs.get? root = e, ws.get? root = e' at hrel ⊢
  cases hrel with
  | none => rfl
  | some hrel =>
    cases ws.produces? v with
    | none => rfl
    | some c => exact congrArg (Compounds.meets · c) hrel.rule.accepts

/-- Every variant wraps the same in both registries. -/
theorem Alike.wrapWithin (parent : Option String) (v : Variant) (ns : List Node) :
    vs.wrapWithin parent v ns = ws.wrapWithin parent v ns := by
  induction v generalizing parent ns with
  | static root =>
    rw [Variants.wrapWithin, Variants.wrapWithin, h.theme]
    exact h.bind_get? (fun e e' hee' => hee'.rule.wrap ws.theme none none ns) root
  | functional root value modifier =>
    rw [Variants.wrapWithin, Variants.wrapWithin, h.theme]
    exact h.bind_get? (fun e e' hee' => hee'.rule.wrap ws.theme value modifier ns) root
  | compound root modifier inner ih =>
    rw [Variants.wrapWithin, Variants.wrapWithin]
    refine h.bind_get? (fun e e' hee' => ?_) root
    have hchange : e.rule.change modifier = e'.rule.change modifier :=
      funext (hee'.rule.change modifier)
    rw [ih, hchange]
  | arbitrary selector relative => rfl

theorem Alike.wrapAll (chain : List Variant) (ns : List Node) :
    vs.wrapAll chain ns = ws.wrapAll chain ns := by
  have hwrap : (fun ns v => vs.wrap v ns) = fun ns v => ws.wrap v ns := by
    funext ns v
    exact h.wrapWithin none v ns
  rw [Variants.wrapAll, Variants.wrapAll, hwrap]

/-- What is put together around variants that are read alike is read alike. -/
theorem Alike.assemble? (hallows : vs.AllowsAlike ws) (root : String) (value modifier : Option String)
    {inner inner' : Option Variant} (hvs : ∀ w ∈ inner, vs.Allows w)
    (hinner : vs.ReadsAlike inner inner') :
    vs.ReadsAlike (vs.assemble? root value modifier inner)
      (ws.assemble? root value modifier inner') := by
  by_cases hkind : ws.kind? root = some .compound
  · rw [assemble?_compound ((h.kind? root).trans hkind), assemble?_compound hkind]
    obtain rfl | ⟨rfl, hrefuses⟩ := hinner
    · cases inner with
      | none => exact .inl rfl
      | some w =>
        obtain hsame | ⟨hnot, hrefuses⟩ := hallows root w (hvs w rfl)
        · rw [Option.bind_some, Option.bind_some, hsame]
          exact .inl rfl
        · rw [Option.bind_some, Option.bind_some, hnot]
          refine .inr ⟨rfl, fun v hv => ?_⟩
          obtain ⟨-, hv⟩ := Option.ite_none_right_eq_some.1 hv
          obtain ⟨m, -, rfl⟩ := Option.map_eq_some_iff.1 hv
          exact hrefuses m
    · refine .inr ⟨rfl, fun v hv => ?_⟩
      obtain ⟨w, hw, hv⟩ := Option.bind_eq_some_iff.1 hv
      obtain ⟨-, hv⟩ := Option.ite_none_right_eq_some.1 hv
      obtain ⟨m, -, rfl⟩ := Option.map_eq_some_iff.1 hv
      exact (hrefuses w hw).compound root m
  · rw [Variants.assemble?, Variants.assemble?, h.kind?]
    cases hws : ws.kind? root with
    | none => exact .inl rfl
    | some kind =>
      cases kind with
      | static => exact .inl rfl
      | functional => exact .inl rfl
      | compound => exact absurd hws hkind

/-- A text is read alike in both registries. -/
theorem Alike.readFrom? (hallows : vs.AllowsAlike ws) (input : List Char) :
    vs.ReadsAlike (vs.readFrom? input) (ws.readFrom? input) := by
  have hknown : (fun root => vs.has (String.ofList root)) = fun root => ws.has (String.ofList root) :=
    funext fun root => h.has _
  fun_induction vs.readFrom? input with
  | case1 input inner hinner =>
    rw [readFrom?_bracketed hinner]
    exact .inl rfl
  | case2 input hinner hsplit =>
    rw [readFrom?_named hinner, hsplit]
    exact .inl rfl
  | case3 input hinner name modifier hsplit known hroot =>
    rw [readFrom?_named hinner, hsplit, Option.bind_some, ← hknown, hroot]
    exact .inl rfl
  | case4 input hinner name modifier hsplit known root value hroot =>
    rename_i ih
    rw [readFrom?_named hinner, hsplit, Option.bind_some, ← hknown, hroot, Option.bind_some]
    cases value with
    | none => exact h.assemble? hallows _ _ _ (fun w hw => absurd hw (Option.not_mem_none w)) (.inl rfl)
    | some value =>
      exact h.assemble? hallows _ _ _ (fun w hw => allows_of_readFrom? hw) (ih value hroot)

/-- Texts are read alike, or only the first registry reads them and one of the variants refuses all
nodes. -/
theorem Alike.mapM_read? (hallows : vs.AllowsAlike ws) (texts : List String) :
    texts.mapM vs.read? = texts.mapM ws.read? ∨
      texts.mapM ws.read? = none ∧
        ∀ chain, texts.mapM vs.read? = some chain → ∃ v ∈ chain, vs.Refuses v := by
  induction texts with
  | nil => exact .inl rfl
  | cons text texts ih =>
    rw [List.mapM_cons, List.mapM_cons]
    obtain hsame | ⟨hnone, hrefuses⟩ := h.readFrom? hallows text.toList
    · change vs.read? text = ws.read? text at hsame
      obtain hrest | ⟨hnone, hrefuses⟩ := ih
      · exact .inl (by rw [hsame, hrest])
      · refine .inr ⟨?_, fun chain hchain => ?_⟩
        · rw [hnone]
          cases ws.read? text <;> rfl
        · obtain ⟨v, -, hchain⟩ := Option.bind_eq_some_iff.1 hchain
          obtain ⟨rest, hrest, hchain⟩ := Option.bind_eq_some_iff.1 hchain
          cases hchain
          obtain ⟨w, hw, hwrefuses⟩ := hrefuses rest hrest
          exact ⟨w, List.mem_cons_of_mem _ hw, hwrefuses⟩
    · change ws.read? text = none at hnone
      refine .inr ⟨by rw [hnone]; rfl, fun chain hchain => ?_⟩
      obtain ⟨v, hv, hchain⟩ := Option.bind_eq_some_iff.1 hchain
      obtain ⟨rest, -, hchain⟩ := Option.bind_eq_some_iff.1 hchain
      cases hchain
      exact ⟨v, List.mem_cons_self, hrefuses v hv⟩

end Alike

end Variants

end UtilityCss
