import UtilityCss.Proofs.Candidate.Texts
import UtilityCss.Proofs.Theme.Lookup
import UtilityCss.Proofs.Variant.Registry
import UtilityCss.Proofs.Variant.Rule
import UtilityCss.Proofs.Variant.Selector
import UtilityCss.Variant.Wrap

/-!
# Closed variants

A variant of the built-in registry wraps closed nodes in closed nodes, and something is printed for
them: a compound variant changes selectors and conditions, but it leaves the blocks that the nodes
are put into where they are.
-/

namespace UtilityCss

open NegatedSelector

/-- Whether the text of an at-rule begins with a name and its parameters are closed. -/
def HeadsAtRule (text : String) : Prop :=
  ∀ p ∈ Node.atHead? text, Chars.isAtName p.1.toList ∧ Passes .part p.2

instance : DecidablePred HeadsAtRule :=
  fun text => inferInstanceAs
    (Decidable (∀ p ∈ Node.atHead? text, Chars.isAtName p.1.toList = true ∧ Passes .part p.2))

/-- Whether a selector or an at-rule given as text can be wrapped around nodes. -/
def IsWrapper (text : String) : Prop :=
  if Text.startsWith text "@" then HeadsAtRule text
  else Passes .selector text ∧ Chars.startsRule text.toList

instance : DecidablePred IsWrapper :=
  fun text => inferInstanceAs (Decidable (if Text.startsWith text "@" = true then _ else _))

/-- Whether the texts that a variant wraps nodes in are closed. Nothing is known of what a stylesheet
declares. -/
def VariantRule.IsClosed : VariantRule → Prop
  | selectors list => ∀ text ∈ list, IsWrapper text
  | body _ => False
  | block name params => Chars.isAtName name.toList ∧ Passes .part params
  | content selector => Passes .selector selector ∧ Chars.headsRule selector.toList
  | breakpoint operator | container operator => IsTame operator
  | nth pseudo => Surrounds .selector ("&:" ++ pseudo ++ "(") ")"
  | marker name combinator => IsTame name ∧ Surrounds .selector "&:is(" (combinator ++ ")")
  | directChildren | aria | data | supports | negation | has | within => True

instance : DecidablePred VariantRule.IsClosed
  | .selectors list => inferInstanceAs (Decidable (∀ text ∈ list, IsWrapper text))
  | .body _ => inferInstanceAs (Decidable False)
  | .block name params =>
    inferInstanceAs (Decidable (Chars.isAtName name.toList = true ∧ Passes .part params))
  | .content selector =>
    inferInstanceAs (Decidable (Passes .selector selector ∧ Chars.headsRule selector.toList = true))
  | .breakpoint operator | .container operator => inferInstanceAs (Decidable (IsTame operator))
  | .nth pseudo => inferInstanceAs (Decidable (Surrounds .selector ("&:" ++ pseudo ++ "(") ")"))
  | .marker name combinator =>
    inferInstanceAs (Decidable (IsTame name ∧ Surrounds .selector "&:is(" (combinator ++ ")")))
  | .directChildren | .aria | .data | .supports | .negation | .has | .within =>
    inferInstanceAs (Decidable True)

/-- What a variant is to make of nodes: closed nodes, for which something is printed if that is so
for the nodes that it wraps or, with `room`, if there are none. -/
def WrapsWell (k : TextKind) (room : Bool) (ns ms : List Node) : Prop :=
  Closed k ms ∧ (isFullBlock room ns → anyFull room ms)

section Wrap

variable {k : TextKind} {room : Bool} {ns ms : List Node} {t : Theme}

theorem wrapsWell_rule {selector : String} (hpass : Passes k selector)
    (hhead : Chars.headsRule selector.toList) (hns : Closed k ns) :
    WrapsWell k room ns [.rule selector ns] := by
  refine ⟨closed_singleton.2 ⟨⟨hpass, hhead⟩, hns⟩, fun h => ?_⟩
  rw [anyFull, Bool.or_eq_true]
  exact .inl h

theorem wrapsWell_atRule {name params : String} (hname : Chars.isAtName name.toList)
    (hpass : Passes .part params) (hns : Closed k ns) :
    WrapsWell k room ns [.atRule name params ns] := by
  refine ⟨closed_singleton.2 ⟨⟨hname, hpass⟩, hns⟩, fun h => ?_⟩
  rw [anyFull, Bool.or_eq_true]
  exact .inl h

theorem wrapsWell_surround {before s behind : String} (hs : Passes k s) (hk : k.isNested)
    (hsurround : Surrounds .selector before behind) (hstart : Chars.startsRule before.toList)
    (hns : Closed k ns) : WrapsWell k room ns [.rule (before ++ s ++ behind) ns] := by
  refine wrapsWell_rule (hs.surround hk (Chars.Surrounds.of_selector hsurround)) ?_ hns
  rw [String.toList_append, String.toList_append, List.append_assoc]
  exact Chars.headsRule_of_startsRule (Chars.startsRule_append hstart)

theorem wrapsWell_atRuleOf {text : String} {n : Node} (htext : HeadsAtRule text)
    (hns : Closed k ns) (h : Node.atRuleOf? text ns = some n) : WrapsWell k room ns [n] := by
  obtain ⟨⟨name, params⟩, hp, rfl⟩ := Option.map_eq_some_iff.1 h
  obtain ⟨hname, hparams⟩ := htext _ hp
  exact wrapsWell_atRule hname hparams hns

theorem wrapsWell_atRules {texts : List String} (htexts : ∀ text ∈ texts, HeadsAtRule text)
    (hns : Closed k ns) (h : wrapAtRules ns texts = some ms) :
    Closed k ms ∧ ∀ {room}, isFullBlock room ns → texts = [] ∧ ms = ns ∨ anyFull room ms := by
  induction texts generalizing ms with
  | nil =>
    cases h
    exact ⟨hns, fun _ => .inl ⟨rfl, rfl⟩⟩
  | cons text texts ih =>
    obtain ⟨inner, n, hinner, hn, rfl⟩ := wrapAtRules_cons_cases h
    obtain ⟨hclosed, hfull⟩ := ih (fun text htext => htexts text (List.mem_cons_of_mem _ htext)) hinner
    have hwrap (room : Bool) : WrapsWell k room inner [n] :=
      wrapsWell_atRuleOf (htexts text List.mem_cons_self) hclosed hn
    refine ⟨(hwrap false).1, fun h => .inr ((hwrap _).2 ?_)⟩
    rcases hfull h with ⟨-, rfl⟩ | hfull
    · exact h
    · exact isFullBlock_of_anyFull hfull

theorem startsRule_intercalate {styles : List String} (hne : styles ≠ [])
    (h : ∀ text ∈ styles, Chars.startsRule text.toList) :
    Chars.startsRule (", ".intercalate styles).toList := by
  cases styles with
  | nil => exact absurd rfl hne
  | cons style styles =>
    have hstyle := h style List.mem_cons_self
    cases styles with
    | nil =>
      rw [String.intercalate_singleton]
      exact hstyle
    | cons =>
      rw [String.intercalate_cons_cons, String.toList_append, String.toList_append,
        List.append_assoc]
      exact Chars.startsRule_append hstyle

theorem wrapsWell_selectors {list : List String} (hlist : ∀ text ∈ list, IsWrapper text)
    (hroom : room → list ≠ []) (hns : Closed k ns) (h : wrapSelectors list ns = some ms) :
    WrapsWell k room ns ms := by
  rcases wrapSelectors_cases h with ⟨hats, h⟩ | ⟨styles, hne, hstyles, h⟩
  · have htexts : ∀ text ∈ list, HeadsAtRule text := by
      intro text htext
      have hwrapper := hlist text htext
      rwa [IsWrapper, if_pos (hats text htext)] at hwrapper
    obtain ⟨hclosed, hfull⟩ := wrapsWell_atRules htexts hns h
    refine ⟨hclosed, fun hblock => ?_⟩
    rcases hfull hblock with ⟨hnil, rfl⟩ | hfull
    · have hroom : room = false := Bool.eq_false_iff.2 fun h => hroom h hnil
      rw [hroom] at hblock ⊢
      exact hblock
    · exact hfull
  · have hats : ∀ text ∈ list.filter (Text.startsWith · "@"), HeadsAtRule text := by
      intro text htext
      obtain ⟨hmem, hat⟩ := List.mem_filter.1 htext
      have hwrapper := hlist text hmem
      rwa [IsWrapper, if_pos hat] at hwrapper
    have hparts : ∀ text ∈ styles, Passes .selector text ∧ Chars.startsRule text.toList := by
      intro text htext
      obtain ⟨hmem, hstyle⟩ := hstyles text htext
      have hwrapper := hlist text hmem
      rwa [IsWrapper, if_neg hstyle] at hwrapper
    have hpass : Passes k (", ".intercalate styles) :=
      Chars.Passes.of_selector
        (passes_intercalate (by decide) fun text htext => (hparts text htext).1)
    have hstart : Chars.startsRule (", ".intercalate styles).toList :=
      startsRule_intercalate hne fun text htext => (hparts text htext).2
    have hrule : WrapsWell k room ns [.rule (", ".intercalate styles) ns] :=
      wrapsWell_rule hpass (Chars.headsRule_of_startsRule hstart) hns
    obtain ⟨hclosed, hfull⟩ := wrapsWell_atRules hats hrule.1 h
    refine ⟨hclosed, fun hblock => ?_⟩
    have hblock := hrule.2 hblock
    rcases hfull (isFullBlock_of_anyFull hblock) with ⟨-, rfl⟩ | hfull
    · exact hblock
    · exact hfull

theorem headsRule_append {lead rest : String} (h : Chars.startsRule lead.toList) :
    Chars.headsRule (lead ++ rest).toList := by
  rw [String.toList_append]
  exact Chars.headsRule_of_startsRule (Chars.startsRule_append h)

end Wrap

section Texts

variable {P : String → Prop} {a : Argument} {t : Theme} {name operator size s : String}
  (hP : TextLaws P)

include hP

theorem holds_supportsCondition (ha : a.Holds P) : P (supportsCondition a) := by
  have htext := ha.text hP
  cases a with
  | named value => exact hP.surround htext (by decide)
  | arbitrary value =>
    rw [supportsCondition.eq_def]
    dsimp only
    split
    · exact htext
    · split
      · exact hP.surround htext (by decide)
      · exact hP.surround htext (by decide)

theorem holds_size (ht : t.ValuesHold P) (ha : a.Holds P) (h : t.size? name a = some s) : P s := by
  cases a with
  | named value => exact Theme.holds_resolveValue ht h
  | arbitrary value =>
    cases h
    exact ha.text hP

theorem holds_widthQuery (hoperator : IsTame operator) (hsize : P size) :
    P ("(width " ++ operator ++ " " ++ size ++ ")") :=
  hP.surround₂ (hP.tame hoperator) hsize (by decide) (by decide)

theorem holds_containerQuery {modifier : Option Argument} (hm : ∀ m ∈ modifier, m.Holds P)
    (hs : P s) : P ((modifier.map (·.text ++ " ")).getD "" ++ s) := by
  cases modifier with
  | none =>
    rw [Option.map_none, Option.getD_none, String.empty_append]
    exact hs
  | some m => exact hP.join ((hm m rfl).text hP) hs (by decide)

end Texts

section Rule

variable {k : TextKind} {room : Bool} {ns ms : List Node} {t : Theme} {r : VariantRule} {a : Argument}
  {value modifier : Option Argument}

theorem Argument.Holds.to_part (h : a.Holds (Passes k)) (hk : k.isNested) : a.Holds (Passes .part) :=
  h.imp fun _ _ hpass => Chars.Passes.to_part hpass hk

theorem Argument.Holds.passes (h : a.Holds (Passes k)) : Passes k a.text := by
  cases a with
  | named => exact (isTame_of_isPlainName h).passes
  | arbitrary => exact h

/-- The content of a pseudo-element is there whatever is put behind it. -/
theorem wrapsWell_content {selector : String} (hpass : Passes .selector selector)
    (hhead : Chars.headsRule selector.toList) (hns : Closed k ns) :
    WrapsWell k room ns [.rule selector ([.plain "content" "var(--tw-content)"] ++ ns ++
      [PropertyDefinition.node "--tw-content" { initial := some "\"\"" }])] := by
  have hcontent : Closed k [.plain "content" "var(--tw-content)"] :=
    Closed.of_selector (by decide +kernel)
  have hproperty : Closed k [PropertyDefinition.node "--tw-content" { initial := some "\"\"" }] :=
    Closed.of_selector (by decide +kernel)
  have hinner := closed_append.2 ⟨closed_append.2 ⟨hcontent, hns⟩, hproperty⟩
  refine ⟨closed_singleton.2 ⟨⟨hpass.of_selector, hhead⟩, hinner⟩, fun _ => ?_⟩
  rw [anyFull, Bool.or_eq_true]
  refine .inl (isFullBlock_of_anyFull ?_)
  rw [List.append_assoc, anyFull_append]
  rfl

/-- A static or functional variant with closed texts wraps closed nodes in closed nodes. -/
theorem VariantRule.IsClosed.wrap (hr : r.IsClosed) (ht : t.IsClosed) (hk : k.isNested)
    (hv : ∀ a ∈ value, a.Holds (Passes k)) (hm : ∀ a ∈ modifier, a.Holds (Passes k))
    (hroom : room → r.produces ≠ {}) (hns : Closed k ns)
    (h : r.wrap t value modifier ns = some ms) : WrapsWell k room ns ms := by
  have hsize {name size : String} {a : Argument} (ha : a ∈ value)
      (hsize : t.size? name a = some size) : Passes .part size :=
    holds_size textLaws_passes ht ((hv a ha).to_part hk) hsize
  cases wraps_of_wrap h with
  | selectors h =>
    refine wrapsWell_selectors hr (fun hempty => ?_) hns h
    rintro rfl
    exact hroom hempty rfl
  | body => exact hr.elim
  | block name params => exact wrapsWell_atRule hr.1 hr.2 hns
  | content selector => exact wrapsWell_content hr.1 hr.2 hns
  | directChildren =>
    have hpass : Passes .selector ":is(& > *)" := by decide
    exact wrapsWell_rule hpass.of_selector (by decide) hns
  | breakpoint ha hfound =>
    exact wrapsWell_atRule (by decide +kernel)
      (holds_widthQuery textLaws_passes hr (hsize ha hfound)) hns
  | container ha hfound =>
    refine wrapsWell_atRule (by decide +kernel) (holds_containerQuery textLaws_passes
      (fun m hmem => (hm m hmem).to_part hk) ?_) hns
    exact holds_widthQuery textLaws_passes hr (hsize ha hfound)
  | aria ha behind hbehind =>
    have hsurround : Surrounds .selector "&[aria-" behind := by
      rcases hbehind with rfl | rfl <;> decide
    exact wrapsWell_surround (hv _ ha).passes hk hsurround (by decide) hns
  | data ha => exact wrapsWell_surround (hv _ ha).passes hk (by decide) (by decide) hns
  | nth ha pseudo =>
    refine wrapsWell_surround (hv _ ha).passes hk hr ?_ hns
    rw [String.toList_append, String.toList_append, List.append_assoc]
    exact Chars.startsRule_append (by decide)
  | supports ha =>
    have hpass := holds_supportsCondition textLaws_passes ((hv _ ha).to_part hk)
    exact wrapsWell_atRule (by decide +kernel) hpass hns

/-- What a compound variant changes keeps its block. -/
theorem VariantRule.IsClosed.change {n n' : Node} (hr : r.IsClosed) (hn : n.IsClosed .selector)
    (h : r.change modifier n = some n') :
    n'.IsClosed .selector ∧ n'.children = n.children ∧ ∀ room, n'.isFull room = n.isFull room := by
  rw [VariantRule.change.eq_def] at h
  split at h
  · cases h
    refine ⟨⟨passes_negateSelectors hn.1, ?_⟩, rfl, fun _ => rfl⟩
    rw [negateSelectors, String.append_assoc]
    exact headsRule_append (by decide)
  · split at h
    · cases h
      exact ⟨⟨hn.1, passes_negateCondition hn.2⟩, rfl, fun _ => rfl⟩
    · cases h
  · split at h
    · cases h
      exact ⟨⟨hn.1, passes_negateCondition hn.2⟩, rfl, fun _ => rfl⟩
    · cases h
  · cases h
    refine ⟨⟨passes_markerSelector hr.1 hr.2 hn.1, ?_⟩, rfl, fun _ => rfl⟩
    rw [markerSelector, String.append_assoc, String.append_assoc]
    exact headsRule_append (by decide)
  · cases h
    refine ⟨⟨(passes_replaceNesting hn.1 inert_star).surround rfl (by decide), ?_⟩, rfl, fun _ => rfl⟩
    rw [String.append_assoc]
    exact headsRule_append (by decide)
  · cases h
    refine ⟨⟨(passes_replaceNesting hn.1 inert_star).surround rfl (by decide), ?_⟩, rfl, fun _ => rfl⟩
    rw [String.append_assoc]
    exact headsRule_append (by decide)
  · cases h

private theorem VariantRule.IsClosed.mapM_change (hr : r.IsClosed) (hns : Closed .selector ns)
    (h : ns.mapM (r.change modifier) = some ms) :
    Closed .selector ms ∧ ∀ room, anyFull room ms = anyFull room ns := by
  induction ns generalizing ms with
  | nil =>
    cases h
    exact ⟨closed_nil, fun _ => rfl⟩
  | cons n ns ih =>
    obtain ⟨hn, hinner, hns⟩ := closed_cons.1 hns
    rw [List.mapM_cons] at h
    obtain ⟨n', hn', h⟩ := Option.bind_eq_some_iff.1 h
    obtain ⟨ns', hns', h⟩ := Option.bind_eq_some_iff.1 h
    cases h
    obtain ⟨hclosed, hchildren, hfull⟩ := hr.change hn hn'
    obtain ⟨hclosed', hfull'⟩ := ih hns hns'
    refine ⟨closed_cons.2 ⟨hclosed, hchildren ▸ hinner, hclosed'⟩, fun room => ?_⟩
    rw [anyFull, hfull, hfull', anyFull]

end Rule

/-- Whether a variant's names are names and its texts in brackets closed. What a compound changes has
to be closed as a selector. -/
def Variant.IsSound (vs : Variants) (k : TextKind) : Variant → Prop
  | static _ => True
  | functional _ value modifier =>
    (∀ a ∈ value, a.Holds (Passes k)) ∧ ∀ a ∈ modifier, a.Holds (Passes k)
  | compound root _ inner => vs.compoundsWith root inner ∧ inner.IsSound vs .selector
  | arbitrary selector _ =>
    if Text.startsWith selector "@" then HeadsAtRule selector
    else Passes k selector ∧ Chars.headsRule selector.toList

def Variants.IsClosed (vs : Variants) : Prop :=
  vs.theme.IsClosed ∧ ∀ e ∈ vs.entries, e.rule.IsClosed

namespace Variants

variable {vs : Variants} {k : TextKind} {room : Bool} {ns ms : List Node}

theorem IsClosed.get? (hvs : vs.IsClosed) {name : String} {e : VariantEntry}
    (h : vs.get? name = some e) : e.rule.IsClosed :=
  hvs.2 e (List.mem_of_find?_eq_some h)

theorem produces_eq {v : Variant} {root : String} {e : VariantEntry} (hroot : v.root? = some root)
    (he : vs.get? root = some e) : vs.produces? v = some e.rule.produces := by
  cases v with
  | arbitrary => cases hroot
  | _ => simp_all [produces?]

/-- What a compound stands around wraps nodes in something. -/
theorem produces_ne_of_compoundsWith {root : String} {v : Variant} (h : vs.compoundsWith root v) :
    vs.produces? v ≠ some {} := by
  intro hproduces
  rw [compoundsWith, hproduces] at h
  split at h
  · next c hc =>
    cases hc
    simp [Compounds.meets] at h
  · exact absurd h Bool.false_ne_true

/-- A variant wraps closed nodes in closed nodes: by induction on the compounds around it. -/
theorem IsClosed.wrapWithin (hvs : vs.IsClosed) (hk : k.isNested) {parent : Option String}
    {v : Variant} (hv : v.IsSound vs k) (hroom : room → vs.produces? v ≠ some {})
    (hns : Closed k ns) (h : vs.wrapWithin parent v ns = some ms) : WrapsWell k room ns ms := by
  refine wrapWithin_induction (K := fun v ns ms => ∀ (k : TextKind) (room : Bool), k.isNested → v.IsSound vs k →
    (room → vs.produces? v ≠ some {}) → Closed k ns → WrapsWell k room ns ms)
    ?_ ?_ ?_ ?_ ?_ h k room hk hv hroom hns
  · intro root e ns ms he h k room hk _ hroom hns
    refine (hvs.get? he).wrap hvs.1 hk (by simp) (by simp) (fun hr hproduces => hroom hr ?_) hns h
    rw [produces_eq rfl he, hproduces]
  · intro root value modifier e ns ms he h k room hk hv hroom hns
    refine (hvs.get? he).wrap hvs.1 hk hv.1 hv.2 (fun hr hproduces => hroom hr ?_) hns h
    rw [produces_eq rfl he, hproduces]
  · intro root modifier inner e wrapped changed ns he ih hchanged k room hk hv _ hns
    have hinner : WrapsWell .selector true [] wrapped :=
      ih .selector true rfl hv.2 (fun _ => produces_ne_of_compoundsWith hv.1) closed_nil
    have hchange := (hvs.get? he).mapM_change hinner.1 hchanged
    refine ⟨closed_fillEach hchange.1.of_selector hns, fun hfull => anyFull_fillEach ?_ hfull⟩
    rw [hchange.2]
    exact hinner.2 rfl
  · intro selector relative ns n hat hn k room _ hv _ hns
    rw [Variant.IsSound, if_pos hat] at hv
    exact wrapsWell_atRuleOf hv hns hn
  · intro selector relative ns hat k room _ hv _ hns
    rw [Variant.IsSound, if_neg hat] at hv
    exact wrapsWell_rule hv.1 hv.2 hns

/-- What every variant of a chain keeps is kept by the chain. -/
theorem forall_wrapAll {P : List Node → Prop} {chain : List Variant}
    (hstep : ∀ v ∈ chain, ∀ ns ms, P ns → vs.wrap v ns = some ms → P ms) (hns : P ns)
    (h : vs.wrapAll chain ns = some ms) : P ms := by
  rw [Variants.wrapAll] at h
  have hreverse : ∀ v ∈ chain.reverse, ∀ ns ms, P ns → vs.wrap v ns = some ms → P ms :=
    fun v hv => hstep v (List.mem_reverse.1 hv)
  generalize chain.reverse = chain at h hreverse
  induction chain generalizing ns with
  | nil =>
    cases h
    exact hns
  | cons v chain ih =>
    rw [List.foldlM_cons] at h
    obtain ⟨inner, hinner, h⟩ := Option.bind_eq_some_iff.1 h
    obtain ⟨hv, hrest⟩ := List.forall_mem_cons.1 hreverse
    exact ih (hv ns inner hns hinner) h hrest

theorem IsClosed.wrapAll (hvs : vs.IsClosed) {chain : List Variant}
    (hchain : ∀ v ∈ chain, v.IsSound vs .part) (hns : Closed .part ns ∧ anyFull false ns)
    (h : vs.wrapAll chain ns = some ms) : Closed .part ms ∧ anyFull false ms := by
  refine forall_wrapAll (P := fun ns => Closed .part ns ∧ anyFull false ns)
    (fun v hv inner outer hinner houter => ?_) hns h
  have hwrap : WrapsWell .part false inner outer :=
    hvs.wrapWithin rfl (hchain v hv) nofun hinner.1 houter
  exact ⟨hwrap.1, hwrap.2 hinner.2⟩

end Variants

/-- Whether the selectors and at-rules of the `dark` variant are closed. -/
def DarkMode.IsClosed : DarkMode → Prop
  | media => True
  | selector s => Passes .selector s
  | variant list => ∀ text ∈ list, IsWrapper text

theorem DarkMode.IsClosed.selectors {dark : DarkMode} (h : dark.IsClosed) :
    ∀ text ∈ dark.selectors, IsWrapper text := by
  cases dark with
  | media => decide +kernel
  | variant list => exact h
  | selector s =>
    intro text htext
    obtain rfl := List.mem_singleton.1 htext
    have hpass : Passes .selector s := h
    have hlist : ("&:where(" ++ s ++ ", " ++ s ++ " *)").toList =
        "&:where(".toList ++ (s ++ ", " ++ s ++ " *)").toList := by
      simp [String.toList_append]
    have hat : Text.startsWith ("&:where(" ++ s ++ ", " ++ s ++ " *)") "@" = false := by
      rw [Text.startsWith, hlist]
      rfl
    rw [IsWrapper, if_neg (by simp [hat])]
    refine ⟨hpass.surround₂ hpass rfl (by decide) (by decide), ?_⟩
    rw [hlist]
    exact Chars.startsRule_append (by decide)

namespace Variants

theorem isClosed_builtin {t : Theme} {dark : DarkMode} (ht : t.IsClosed) (hdark : dark.IsClosed) :
    (builtin t dark).IsClosed := by
  have hrules : (builtin t dark).AllRules fun _ rule => rule.IsClosed := by
    refine allRules_builtin (forall_builtinRules (P := fun _ rule => rule.IsClosed)
      (by decide +kernel) (fun p hp => ?_) hdark.selectors)
    obtain ⟨e', he', hsome⟩ := List.mem_filterMap.1 hp
    obtain ⟨suffix, -, hsome⟩ := Option.bind_eq_some_iff.1 hsome
    obtain ⟨-, hpair⟩ := Option.ite_none_left_eq_some.1 hsome
    cases hpair
    exact ⟨by decide +kernel, (ht e' he').surround rfl (by decide)⟩
  exact ⟨by rwa [theme_builtin], hrules⟩

end Variants

end UtilityCss
