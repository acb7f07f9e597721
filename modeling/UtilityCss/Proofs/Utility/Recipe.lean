import UtilityCss.Proofs.Utility.Nodes
import UtilityCss.Proofs.Utility.Value
import UtilityCss.Utility.Builtin

/-!
# Sound recipes

A template is sound if its places for the value are outside quotes and names, and closed brackets are
around them. Filled with a value that is all that is asked of texts, it gives such nodes. All built-in
recipes are sound: for a candidate with texts as asked they give nodes with texts as asked, and
something is printed for these.
-/

namespace UtilityCss

mutual

def Template.isSound : Template → Bool
  | .decl property pieces => decide (isPropertyName property) && decide (Fits pieces)
  | .rule selector body =>
    decide (Passes .part selector) && Chars.headsRule selector.toList && templatesSound body
  | .property name definition => decide (Sound (fun s => Fits [s]) [definition.node name])

def templatesSound : List Template → Bool
  | [] => true
  | t :: ts => t.isSound && templatesSound ts

end

section Fill

variable {P : String → Prop} {value : String}

mutual

private theorem Template.sound_fill (hP : TextLaws P) (hvalue : P value) (t : Template)
    (h : t.isSound) :
    Sound P [t.fill value] := by
  match t with
  | .decl property pieces =>
    rw [Template.isSound, Bool.and_eq_true, decide_eq_true_eq, decide_eq_true_eq] at h
    exact sound_singleton.2 ⟨⟨h.1, List.forall_mem_singleton.2 (hP.fill hvalue h.2)⟩, sound_nil⟩
  | .rule selector body =>
    rw [Template.isSound, Bool.and_eq_true, Bool.and_eq_true, decide_eq_true_eq] at h
    exact sound_singleton.2 ⟨⟨h.1, List.forall_mem_nil _⟩, sound_fillTemplates hP hvalue body h.2⟩
  | .property name definition =>
    rw [Template.isSound, decide_eq_true_eq] at h
    exact h.imp fun _ => hP.fixed

theorem sound_fillTemplates (hP : TextLaws P) (hvalue : P value) (ts : List Template)
    (h : templatesSound ts) : Sound P (fillTemplates value ts) := by
  match ts with
  | [] => exact sound_nil
  | t :: ts =>
    rw [templatesSound, Bool.and_eq_true] at h
    exact sound_append.2 ⟨t.sound_fill hP hvalue h.1, sound_fillTemplates hP hvalue ts h.2⟩

end

end Fill

mutual

theorem Template.isFull_fill (value other : String) (t : Template) :
    (t.fill value).isFull false = (t.fill other).isFull false := by
  match t with
  | .decl _ _ => rfl
  | .rule _ body => exact anyFull_fillTemplates value other body
  | .property _ _ => rfl

theorem anyFull_fillTemplates (value other : String) (ts : List Template) :
    anyFull false (fillTemplates value ts) = anyFull false (fillTemplates other ts) := by
  match ts with
  | [] => rfl
  | t :: ts =>
    rw [fillTemplates, anyFull, t.isFull_fill value other, anyFull_fillTemplates value other ts]
    rfl

end

/-- What a utility is to give for a candidate: nodes with texts as asked, for which something is
printed. -/
def GoodNodes (P : String → Prop) (ns : List Node) : Prop := Sound P ns ∧ anyFull false ns

instance (P : String → Prop) [DecidablePred P] : DecidablePred (GoodNodes P) :=
  fun ns => inferInstanceAs (Decidable (Sound P ns ∧ anyFull false ns = true))

def GivesGood (ts : List Template) : Prop :=
  templatesSound ts ∧ anyFull false (fillTemplates "" ts)

instance : DecidablePred GivesGood :=
  fun ts => inferInstanceAs
    (Decidable (templatesSound ts = true ∧ anyFull false (fillTemplates "" ts) = true))

theorem GivesGood.fill {P : String → Prop} (hP : TextLaws P) {ts : List Template} (h : GivesGood ts)
    {value : String} (hvalue : P value) : GoodNodes P (fillTemplates value ts) := by
  refine ⟨sound_fillTemplates hP hvalue ts h.1, ?_⟩
  rw [anyFull_fillTemplates value ""]
  exact h.2

/-- Whether the texts that a recipe puts together fit whatever is asked. Nothing is known of what a
stylesheet or a plugin declares. -/
def Recipe.IsSound : Recipe → Prop
  | fixed nodes => GoodNodes (fun s => Fits [s]) nodes
  | valued rule output => rule.IsSound ∧ GivesGood output
  | colored keys output => (∀ key ∈ keys, IsTame key) ∧ GivesGood output
  | declared _ | matched _ _ => False
  | aspectRatio | background | gradient | fontSize | content => True

instance : DecidablePred Recipe.IsSound
  | .fixed nodes => inferInstanceAs (Decidable (GoodNodes (fun s => Fits [s]) nodes))
  | .valued rule output => inferInstanceAs (Decidable (rule.IsSound ∧ GivesGood output))
  | .colored keys output =>
    inferInstanceAs (Decidable ((∀ key ∈ keys, IsTame key) ∧ GivesGood output))
  | .declared _ | .matched _ _ => inferInstanceAs (Decidable False)
  | .aspectRatio | .background | .gradient | .fontSize | .content =>
    inferInstanceAs (Decidable True)

section Plain

variable {P : String → Prop} {ns ms : List Node} {property value : String}

theorem goodNodes_plain (hname : isPropertyName property) (hvalue : P value) :
    GoodNodes P [.plain property value] :=
  ⟨sound_singleton.2 ⟨⟨hname, List.forall_mem_singleton.2 hvalue⟩, sound_nil⟩, rfl⟩

theorem GoodNodes.append (h : GoodNodes P ns) (hms : Sound P ms) : GoodNodes P (ns ++ ms) := by
  refine ⟨sound_append.2 ⟨h.1, hms⟩, ?_⟩
  rw [anyFull_append, h.2]
  rfl

private theorem isPropertyName_background {hint : Option String}
    (h : backgroundProperty? value hint = some property) : isPropertyName property := by
  rw [backgroundProperty?.eq_def] at h
  split at h
  · split at h
    · cases h
      decide
    · split at h
      · cases h
        decide
      · split at h
        · cases h
          decide
        · cases h
  · obtain ⟨type, -, rfl⟩ := Option.map_eq_some_iff.1 h
    split <;> decide

end Plain

section Values

variable {P : String → Prop} {t : Theme} {v : CandidateValue} {modifier : Option Argument} {s : String}
  {ns : List Node} (hP : TextLaws P)

include hP

private theorem goodNodes_gradient (hv : v.Holds P) (h : gradientNodes? v = some ns) :
    GoodNodes P ns := by
  rw [gradientNodes?.eq_def] at h
  split at h
  · cases h
    exact GivesGood.fill hP (by decide) hv
  · obtain ⟨direction, hdirection, rfl⟩ := Option.map_eq_some_iff.1 h
    obtain ⟨s, hs, rfl⟩ := Option.map_eq_some_iff.1 hdirection
    have hside : P s := by
      simp only [Option.orElse_eq_orElse, Option.orElse_eq_or, Option.or_eq_some_iff] at hs
      rcases hs with hs | ⟨-, hs⟩
      · exact holds_of_lookup hP (by decide) hs
      · exact hP.tame (isTame_stepWithUnit (by decide) (isTame_of_isPlainName hv.1) hs)
    have hspace : P ("" ++ s ++ " in oklab") := hP.surround hside (by decide)
    rw [String.empty_append] at hspace
    exact GivesGood.fill hP (by decide) hspace
  · cases h

variable (ht : t.ValuesHold P)

include ht

private theorem holds_aspectRatio (hv : v.Holds P) (h : aspectRatio? t v = some s) : P s := by
  rw [aspectRatio?.eq_def] at h
  split at h
  · split at h
    · cases h
      exact hv
    · cases h
  · split at h
    · cases h
      exact hP.key (hv.2 _ rfl)
    · cases h
  · cases h
    exact hP.fixed (by decide)
  · cases h
    exact hP.fixed (by decide)
  · next value _ _ =>
    have hvalue : IsKeyText value := (isTame_of_isPlainName hv.1).isKeyText
    simp only [Option.orElse_eq_orElse, Option.orElse_eq_or, Option.or_eq_some_iff] at h
    rcases h with h | ⟨-, h⟩
    · exact Theme.holds_resolve hP ht (by decide) (by simpa using hvalue) h
    · split at h
      · cases h
        exact hP.fixed (by decide)
      · cases h

theorem holds_fontSize {nested : List Node} (hv : v.Holds P) (h : fontSize? t v = some (s, nested)) :
    P s ∧ Sound P nested := by
  rw [fontSize?.eq_def] at h
  split at h
  · split at h
    · cases h
      exact ⟨hv, sound_nil⟩
    · cases h
  · next value _ =>
    have hvalue : IsKeyText value := (isTame_of_isPlainName hv.1).isKeyText
    obtain ⟨⟨size, texts⟩, hresolve, h⟩ := Option.bind_eq_some_iff.1 h
    cases h
    obtain ⟨e, he, h⟩ := Option.map_eq_some_iff.1 hresolve
    obtain ⟨rfl, rfl⟩ := Prod.mk.inj h
    obtain ⟨name, hname, he⟩ := List.exists_of_findSome?_eq_some he
    obtain rfl := List.mem_singleton.1 hname
    have hkey := Theme.holds_key_of_lookup hP he (by decide) (by simpa using hvalue)
    refine ⟨Theme.holds_render hP (ht e (Theme.mem_of_lookup he)) hkey, ?_⟩
    rw [sound_iff_forall_mem]
    intro n hn
    obtain ⟨⟨_, text⟩, htext, hn⟩ := List.mem_filterMap.1 hn
    obtain ⟨⟨property, shared⟩, hlookup, rfl⟩ := Option.map_eq_some_iff.1 hn
    obtain ⟨suffix, -, hentry⟩ := List.mem_filterMap.1 htext
    obtain ⟨inner, hinner, hpair⟩ := Option.map_eq_some_iff.1 hentry
    obtain ⟨rfl, rfl⟩ := Prod.mk.inj hpair
    have hparts : ∀ part ∈ fontSizeParts, IsTame part.1 ∧ isPropertyName part.2.1 ∧
        IsTame part.2.2 := by decide
    obtain ⟨hsuffix, hname, hshared⟩ := hparts _ (mem_of_lookup hlookup)
    obtain ⟨hmem, hinnerKey⟩ := Theme.mem_of_get? hinner
    have hrender : P inner.render :=
      Theme.holds_render hP (ht inner hmem) (hinnerKey ▸ hP.behind hkey hsuffix)
    have htext : P ("var(" ++ shared ++ ", " ++ inner.render ++ ")") :=
      hP.surround₂ (hP.tame hshared) hrender (by decide) (by decide)
    exact (goodNodes_plain hname htext).1

private theorem holds_lineHeight {m : Argument} (hm : m.Holds fun s => P (Text.trim s))
    (h : lineHeight? t m = some s) : P s := by
  cases m with
  | arbitrary =>
    cases h
    exact hP.of_trim hm
  | named value =>
    have hvalue : IsTame value := isTame_of_isPlainName hm
    simp only [lineHeight?, Option.orElse_eq_orElse, Option.orElse_eq_or, Option.or_eq_some_iff] at h
    rcases h with h | ⟨-, h⟩
    · exact Theme.holds_resolve hP ht (by decide) (by simpa using hvalue.isKeyText) h
    · exact holds_spacingOf hP ht hvalue h

private theorem goodNodes_fontSize (hv : v.Holds P)
    (hm : ∀ m ∈ modifier, m.Holds fun s => P (Text.trim s))
    (h : fontSizeNodes? t v modifier = some ns) : GoodNodes P ns := by
  obtain ⟨⟨size, nested⟩, hsize, h⟩ := Option.bind_eq_some_iff.1 h
  obtain ⟨hpass, hnested⟩ := holds_fontSize hP ht hv hsize
  have hfirst : GoodNodes P [.plain "font-size" size] := goodNodes_plain (by decide) hpass
  cases modifier with
  | none =>
    cases h
    exact hfirst.append hnested
  | some m =>
    obtain ⟨height, hheight, h⟩ := Option.bind_eq_some_iff.1 h
    cases h
    have hline : GoodNodes P [.plain "line-height" height] :=
      goodNodes_plain (by decide) (holds_lineHeight hP ht (hm m rfl) hheight)
    exact hfirst.append hline.1

/-- A sound recipe gives nodes with texts as asked for a candidate with such texts. -/
theorem Recipe.IsSound.nodes {c : Candidate} {r : Recipe} (hr : r.IsSound)
    (hv : ∀ v ∈ c.value?, v.Holds P) (hm : ∀ m ∈ c.modifier?, m.Holds fun s => P (Text.trim s))
    (h : r.nodes? t c = some ns) : GoodNodes P ns := by
  cases gives_of_nodes? h with
  | fixed => exact ⟨hr.1.imp fun _ => hP.fixed, hr.2⟩
  | valued htext => exact hr.2.fill hP (ValueRule.holds_resolve hP ht hr.1 hv htext)
  | colored hvalue hcolor =>
    exact hr.2.fill hP (holds_resolveColor hP ht hr.1 (hv _ hvalue) hm hcolor)
  | declared => exact hr.elim
  | matched => exact hr.elim
  | aspectRatio hvalue hratio =>
    exact goodNodes_plain (by decide) (holds_aspectRatio hP ht (hv _ hvalue) hratio)
  | background hvalue hproperty =>
    exact goodNodes_plain (isPropertyName_background hproperty) (hv _ hvalue)
  | gradient hvalue hns => exact goodNodes_gradient hP (hv _ hvalue) hns
  | fontSize hvalue hns => exact goodNodes_fontSize hP ht (hv _ hvalue) hm hns
  | content hvalue => exact GivesGood.fill hP (by decide) (hv _ hvalue)

end Values

/-- The built-in recipes are sound. -/
theorem isSound_builtinUtilities : ∀ e ∈ builtinUtilities, e.2.IsSound := by
  decide +kernel

/-- What a registry generates for a candidate comes from one of its recipes. -/
theorem Utilities.exists_of_generate {us : Utilities} {t : Theme} {name : String}
    {kind : UtilityKind} {c : Candidate} {ns : List Node} {order : Nat}
    (h : us.generate? t name kind c = some (ns, order)) :
    ∃ e ∈ us.entries, e.2.nodes? t c = some ns := by
  obtain ⟨⟨recipe, place⟩, hmem, h⟩ := List.exists_of_findSome?_eq_some h
  obtain ⟨⟨entry, index⟩, hentry, hsome⟩ := List.mem_filterMap.1 hmem
  obtain ⟨hfits, hpair⟩ := Option.ite_none_right_eq_some.1 hsome
  obtain ⟨rfl, rfl⟩ := Prod.mk.inj (Option.some.inj hpair)
  refine ⟨entry, List.fst_mem_of_mem_zipIdx hentry, ?_⟩
  dsimp only at h
  split at h
  · obtain ⟨nodes, hnodes, h⟩ := Option.bind_eq_some_iff.1 h
    split at h
    · cases h
    · cases h
      exact hnodes
  · cases h

end UtilityCss
