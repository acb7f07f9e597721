import UtilityCss.Utility.Recipe

/-!
# What recipes give

A recipe gives nodes for a candidate in one way for each kind: nodes as they are, a template that is
filled with what the value stands for, or what one of the built-in utilities makes of the value.
-/

namespace UtilityCss

namespace Recipe

/-- The nodes that a recipe gives for a candidate, with what is asked of the candidate. -/
inductive Gives (t : Theme) (c : Candidate) : Recipe → List Node → Prop where
  | fixed {nodes : List Node} (hsign : c.negative = false) : Gives t c (.fixed nodes) nodes
  | valued {rule : ValueRule} {output : List Template} {text : String}
    (htext : rule.resolve? t c = some text) :
    Gives t c (.valued rule output) (fillTemplates text output)
  | colored {keys : List String} {output : List Template} {v : CandidateValue} {color : String}
    (hvalue : c.value? = some v) (hcolor : resolveColor? t keys v c.modifier? = some color)
    (hsign : c.negative = false) : Gives t c (.colored keys output) (fillTemplates color output)
  | declared {body ns : List Node} (hns : customNodes? t body c = some ns) :
    Gives t c (.declared body) ns
  | matched {rule : MatchRule} {trees : List PluginTree} {ns : List Node}
    (hns : rule.nodes? trees c = some ns) : Gives t c (.matched rule trees) ns
  | aspectRatio {v : CandidateValue} {ratio : String} (hvalue : c.value? = some v)
    (hratio : aspectRatio? t v = some ratio) (hsign : c.negative = false) :
    Gives t c .aspectRatio [.plain "aspect-ratio" ratio]
  | background {text property : String} {hint : Option String}
    (hvalue : c.value? = some (.arbitrary text hint))
    (hproperty : backgroundProperty? text hint = some property) (hsign : c.negative = false)
    (hmodifier : c.modifier? = none) : Gives t c .background [.plain property text]
  | gradient {v : CandidateValue} {ns : List Node} (hvalue : c.value? = some v)
    (hns : gradientNodes? v = some ns) (hsign : c.negative = false) (hmodifier : c.modifier? = none) :
    Gives t c .gradient ns
  | fontSize {v : CandidateValue} {ns : List Node} (hvalue : c.value? = some v)
    (hns : fontSizeNodes? t v c.modifier? = some ns) (hsign : c.negative = false) :
    Gives t c .fontSize ns
  | content {text : String} {hint : Option String} (hvalue : c.value? = some (.arbitrary text hint))
    (hsign : c.negative = false) (hmodifier : c.modifier? = none) :
    Gives t c .content (fillTemplates text
      [.set "--tw-content", .fixed "content" "var(--tw-content)",
       .property "--tw-content" { initial := some "\"\"" }])

theorem gives_of_nodes? {t : Theme} {c : Candidate} {r : Recipe} {ns : List Node}
    (h : r.nodes? t c = some ns) : r.Gives t c ns := by
  have hplain (h : ¬ (c.negative || c.modifier?.isSome)) :
      c.negative = false ∧ c.modifier? = none := by
    simpa using h
  cases r with
  | fixed nodes =>
    obtain ⟨hsign, h⟩ := Option.ite_none_left_eq_some.1 h
    cases h
    exact .fixed (Bool.eq_false_iff.2 hsign)
  | valued rule output =>
    obtain ⟨text, htext, rfl⟩ := Option.map_eq_some_iff.1 h
    exact .valued htext
  | colored keys output =>
    obtain ⟨v, hvalue, h⟩ := Option.bind_eq_some_iff.1 h
    obtain ⟨color, hcolor, h⟩ := Option.bind_eq_some_iff.1 h
    obtain ⟨hsign, h⟩ := Option.ite_none_left_eq_some.1 h
    cases h
    exact .colored hvalue hcolor (Bool.eq_false_iff.2 hsign)
  | declared body => exact .declared h
  | matched rule trees => exact .matched h
  | aspectRatio =>
    obtain ⟨v, hvalue, h⟩ := Option.bind_eq_some_iff.1 h
    obtain ⟨ratio, hratio, h⟩ := Option.bind_eq_some_iff.1 h
    obtain ⟨hsign, h⟩ := Option.ite_none_left_eq_some.1 h
    cases h
    exact .aspectRatio hvalue hratio (Bool.eq_false_iff.2 hsign)
  | background =>
    rw [nodes?] at h
    split at h
    · next hvalue =>
      obtain ⟨hguard, h⟩ := Option.ite_none_left_eq_some.1 h
      obtain ⟨property, hproperty, rfl⟩ := Option.map_eq_some_iff.1 h
      exact .background hvalue hproperty (hplain hguard).1 (hplain hguard).2
    · cases h
  | gradient =>
    obtain ⟨v, hvalue, h⟩ := Option.bind_eq_some_iff.1 h
    obtain ⟨nodes, hnodes, h⟩ := Option.bind_eq_some_iff.1 h
    obtain ⟨hguard, h⟩ := Option.ite_none_left_eq_some.1 h
    cases h
    exact .gradient hvalue hnodes (hplain hguard).1 (hplain hguard).2
  | fontSize =>
    obtain ⟨v, hvalue, h⟩ := Option.bind_eq_some_iff.1 h
    obtain ⟨nodes, hnodes, h⟩ := Option.bind_eq_some_iff.1 h
    obtain ⟨hsign, h⟩ := Option.ite_none_left_eq_some.1 h
    cases h
    exact .fontSize hvalue hnodes (Bool.eq_false_iff.2 hsign)
  | content =>
    rw [nodes?] at h
    split at h
    · next hvalue =>
      obtain ⟨hguard, h⟩ := Option.ite_none_left_eq_some.1 h
      cases h
      exact .content hvalue (hplain hguard).1 (hplain hguard).2
    · cases h

end Recipe

end UtilityCss
