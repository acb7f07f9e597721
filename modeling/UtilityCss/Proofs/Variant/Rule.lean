import UtilityCss.Proofs.Stylesheet.Node
import UtilityCss.Variant.Wrap

/-!
# What variants wrap nodes in

A list wraps nodes in its at-rules, which are around one rule with its selectors. Apart from lists
and bodies, a variant wraps nodes in a single rule or at-rule, with a text put together around its value.
-/

namespace UtilityCss

variable {text : String} {texts list : List String} {ns ms : List Node}

/-- The first at-rule of a list is around what the others wrap nodes in. -/
theorem wrapAtRules_cons_cases (h : wrapAtRules ns (text :: texts) = some ms) :
    ∃ inner n, wrapAtRules ns texts = some inner ∧ Node.atRuleOf? text inner = some n ∧
      ms = [n] := by
  obtain ⟨inner, hinner, h⟩ := Option.bind_eq_some_iff.1 h
  obtain ⟨n, hn, h⟩ := Option.bind_eq_some_iff.1 h
  exact ⟨inner, n, hinner, hn, (Option.some.inj h).symm⟩

/-- A list of at-rules alone wraps nodes as they are, and one with selectors what is a rule. -/
theorem wrapSelectors_cases (h : wrapSelectors list ns = some ms) :
    ((∀ text ∈ list, Text.startsWith text "@") ∧ wrapAtRules ns list = some ms) ∨
      ∃ styles, styles ≠ [] ∧ (∀ text ∈ styles, text ∈ list ∧ ¬ Text.startsWith text "@") ∧
        wrapAtRules [.rule (", ".intercalate styles) ns] (list.filter (Text.startsWith · "@")) =
          some ms := by
  rw [wrapSelectors, List.partition_eq_filter_filter] at h
  dsimp only at h
  split at h
  · next hstyles =>
    have hats : ∀ text ∈ list, Text.startsWith text "@" := by
      simpa [List.filter_eq_nil_iff] using hstyles
    rw [List.filter_eq_self.2 hats] at h
    exact .inl ⟨hats, h⟩
  · next hstyles =>
    refine .inr ⟨_, fun hnil => hstyles (List.isEmpty_iff.2 hnil), fun text htext => ?_, h⟩
    obtain ⟨hmem, hstyle⟩ := List.mem_filter.1 htext
    exact ⟨hmem, by simpa using hstyle⟩

section Heads

variable {P : Node → Prop} (hP : IsOfHead P)

include hP

/-- At-rules given as text are around nodes with the heads that the texts are. -/
theorem forall_wrapAtRules (h : wrapAtRules ns texts = some ms) :
    (∀ m ∈ allNodes ms, P m) ↔
      (∀ text ∈ texts, ∀ p ∈ Node.atHead? text, P (.atRule p.1 p.2 [])) ∧ ∀ m ∈ allNodes ns, P m := by
  induction texts generalizing ms with
  | nil =>
    cases h
    exact (and_iff_right (List.forall_mem_nil _)).symm
  | cons text texts ih =>
    obtain ⟨inner, n, hinner, hn, rfl⟩ := wrapAtRules_cons_cases h
    obtain ⟨p, hp, rfl⟩ := Option.map_eq_some_iff.1 hn
    have hhead : P (.atRule p.1 p.2 inner) ↔ ∀ p ∈ Node.atHead? text, P (.atRule p.1 p.2 []) := by
      rw [hp]
      simpa [Node.withChildren] using hP (.atRule p.1 p.2 []) inner
    rw [forall_allNodes_singleton, hhead, Node.children, ih hinner, List.forall_mem_cons, and_assoc]

/-- A list wraps nodes in its at-rules and a rule. -/
theorem forall_wrapSelectors (hrule : ∀ sel ns, P (.rule sel ns))
    (h : wrapSelectors list ns = some ms) :
    (∀ m ∈ allNodes ms, P m) ↔
      (∀ text ∈ list, Text.startsWith text "@" → ∀ p ∈ Node.atHead? text, P (.atRule p.1 p.2 [])) ∧
        ∀ m ∈ allNodes ns, P m := by
  rcases wrapSelectors_cases h with ⟨hats, h⟩ | ⟨styles, -, -, h⟩
  · refine (forall_wrapAtRules hP h).trans (and_congr_left' (forall₂_congr fun text htext => ?_))
    rw [imp_iff_right (hats text htext)]
  · rw [forall_wrapAtRules hP h, forall_allNodes_singleton, and_iff_right (hrule _ _)]
    simp only [List.mem_filter, and_imp]
    rfl

end Heads

namespace VariantRule

/-- How a static or functional variant with a value and a modifier wraps nodes. -/
inductive Wraps (t : Theme) (value modifier : Option Argument) (ns : List Node) :
    VariantRule → List Node → Prop where
  | selectors {list : List String} {ms : List Node} (h : wrapSelectors list ns = some ms) :
    Wraps t value modifier ns (.selectors list) ms
  | body (nodes : List Node) : Wraps t value modifier ns (.body nodes)
      (replaceEach (fun n => if n.isAt "slot" then some ns else none) nodes)
  | block (name params : String) :
    Wraps t value modifier ns (.block name params) [.atRule name params ns]
  | content (selector : String) : Wraps t value modifier ns (.content selector)
      [.rule selector ([.plain "content" "var(--tw-content)"] ++ ns ++
        [PropertyDefinition.node "--tw-content" { initial := some "\"\"" }])]
  | directChildren : Wraps t value modifier ns .directChildren [.rule ":is(& > *)" ns]
  | breakpoint {operator size : String} {a : Argument} (ha : a ∈ value)
      (hsize : t.size? "--breakpoint" a = some size) :
    Wraps t value modifier ns (.breakpoint operator)
      [.atRule "media" ("(width " ++ operator ++ " " ++ size ++ ")") ns]
  | container {operator size : String} {a : Argument} (ha : a ∈ value)
      (hsize : t.size? "--container" a = some size) :
    Wraps t value modifier ns (.container operator)
      [.atRule "container" ((modifier.map (·.text ++ " ")).getD "" ++
        ("(width " ++ operator ++ " " ++ size ++ ")")) ns]
  | aria {a : Argument} (ha : a ∈ value) (behind : String)
      (hbehind : behind = "]" ∨ behind = "=\"true\"]") :
    Wraps t value modifier ns .aria [.rule ("&[aria-" ++ a.text ++ behind) ns]
  | data {a : Argument} (ha : a ∈ value) :
    Wraps t value modifier ns .data [.rule ("&[data-" ++ a.text ++ "]") ns]
  | nth {a : Argument} (ha : a ∈ value) (pseudo : String) :
    Wraps t value modifier ns (.nth pseudo) [.rule ("&:" ++ pseudo ++ "(" ++ a.text ++ ")") ns]
  | supports {a : Argument} (ha : a ∈ value) :
    Wraps t value modifier ns .supports [.atRule "supports" (supportsCondition a) ns]

section Wrap

variable {t : Theme} {value modifier : Option Argument}

theorem mem_of_onlyValue {a : Argument} (h : onlyValue? value modifier = some a) : a ∈ value := by
  rw [onlyValue?] at h
  split at h
  · exact h
  · cases h

theorem wraps_of_wrap {r : VariantRule} (h : r.wrap t value modifier ns = some ms) :
    r.Wraps t value modifier ns ms := by
  cases r with
  | selectors list => exact .selectors h
  | body nodes =>
    cases h
    exact .body nodes
  | block name params =>
    cases h
    exact .block name params
  | content selector =>
    cases h
    exact .content selector
  | directChildren =>
    cases h
    exact .directChildren
  | breakpoint operator =>
    obtain ⟨a, ha, h⟩ := Option.bind_eq_some_iff.1 h
    obtain ⟨size, hsize, h⟩ := Option.bind_eq_some_iff.1 h
    cases h
    exact .breakpoint (mem_of_onlyValue ha) hsize
  | container operator =>
    obtain ⟨a, ha, h⟩ := Option.bind_eq_some_iff.1 h
    obtain ⟨size, hsize, h⟩ := Option.bind_eq_some_iff.1 h
    cases h
    exact .container ha hsize
  | aria =>
    obtain ⟨a, ha, h⟩ := Option.bind_eq_some_iff.1 h
    cases a with
    | named =>
      cases h
      exact .aria (mem_of_onlyValue ha) _ (.inr rfl)
    | arbitrary =>
      cases h
      exact .aria (mem_of_onlyValue ha) _ (.inl rfl)
  | data =>
    obtain ⟨a, ha, h⟩ := Option.bind_eq_some_iff.1 h
    cases h
    exact .data (mem_of_onlyValue ha)
  | nth pseudo =>
    obtain ⟨a, ha, h⟩ := Option.bind_eq_some_iff.1 h
    obtain ⟨number, hnumber, h⟩ := Option.bind_eq_some_iff.1 h
    cases h
    obtain rfl : number = a.text := by
      cases a with
      | named => exact (Option.map_eq_some_iff.1 hnumber).choose_spec.2.symm
      | arbitrary => exact (Option.some.inj hnumber).symm
    exact .nth (mem_of_onlyValue ha) pseudo
  | supports =>
    obtain ⟨a, ha, h⟩ := Option.bind_eq_some_iff.1 h
    cases h
    exact .supports (mem_of_onlyValue ha)
  | negation | marker | has | within => cases h

end Wrap

/-- What a compound variant may make of a node: one of its kind with the same block. Conditions are
negated. -/
inductive Changes : Node → Node → Prop where
  | rule (selector selector' : String) (ns : List Node) :
    Changes (.rule selector ns) (.rule selector' ns)
  | atRule {name : String} (params : String) (ns : List Node) (h : isNegatable name) :
    Changes (.atRule name params ns) (.atRule name (negateCondition name params) ns)
  | statement {name : String} (params : String) (h : isNegatable name) :
    Changes (.statement name params) (.statement name (negateCondition name params))

theorem changes_of_change {r : VariantRule} {modifier : Option Argument} {n n' : Node}
    (h : r.change modifier n = some n') : Changes n n' := by
  rw [change.eq_def] at h
  split at h
  · cases h
    exact .rule ..
  · obtain ⟨hname, h⟩ := Option.ite_none_right_eq_some.1 h
    cases h
    exact .atRule _ _ hname
  · obtain ⟨hname, h⟩ := Option.ite_none_right_eq_some.1 h
    cases h
    exact .statement _ hname
  · cases h
    exact .rule ..
  · cases h
    exact .rule ..
  · cases h
    exact .rule ..
  · cases h

end VariantRule

/-- Induction on how a variant wraps nodes. A compound changes what the variant inside it wraps around
nothing, and puts the nodes into the empty blocks of that. -/
theorem Variants.wrapWithin_induction {vs : Variants} {K : Variant → List Node → List Node → Prop}
    (static : ∀ root e ns ms, vs.get? root = some e → e.rule.wrap vs.theme none none ns = some ms →
      K (.static root) ns ms)
    (functional : ∀ root value modifier e ns ms, vs.get? root = some e →
      e.rule.wrap vs.theme value modifier ns = some ms → K (.functional root value modifier) ns ms)
    (compound : ∀ root modifier inner e wrapped changed ns, vs.get? root = some e →
      K inner [] wrapped → wrapped.mapM (e.rule.change modifier) = some changed →
      K (.compound root modifier inner) ns (fillEach ns changed))
    (atRule : ∀ selector relative ns n, Text.startsWith selector "@" →
      Node.atRuleOf? selector ns = some n → K (.arbitrary selector relative) ns [n])
    (rule : ∀ selector relative ns, ¬ Text.startsWith selector "@" →
      K (.arbitrary selector relative) ns [.rule selector ns])
    {parent : Option String} {v : Variant} {ns ms : List Node}
    (h : vs.wrapWithin parent v ns = some ms) : K v ns ms := by
  induction v generalizing parent ns ms with
  | static root =>
    obtain ⟨e, he, h⟩ := Option.bind_eq_some_iff.1 h
    exact static root e ns ms he h
  | functional root value modifier =>
    obtain ⟨e, he, h⟩ := Option.bind_eq_some_iff.1 h
    exact functional root value modifier e ns ms he h
  | compound root modifier inner ih =>
    obtain ⟨e, he, h⟩ := Option.bind_eq_some_iff.1 h
    obtain ⟨wrapped, hwrapped, h⟩ := Option.bind_eq_some_iff.1 h
    obtain ⟨-, h⟩ := Option.ite_none_left_eq_some.1 h
    obtain ⟨changed, hchanged, h⟩ := Option.bind_eq_some_iff.1 h
    cases h
    exact compound root modifier inner e wrapped changed ns he (ih hwrapped) hchanged
  | arbitrary selector relative =>
    rw [Variants.wrapWithin] at h
    obtain ⟨-, h⟩ := Option.ite_none_left_eq_some.1 h
    split at h
    · next hat =>
      obtain ⟨n, hn, rfl⟩ := Option.map_eq_some_iff.1 h
      exact atRule selector relative ns n hat hn
    · next hat =>
      cases h
      exact rule selector relative ns hat

end UtilityCss
