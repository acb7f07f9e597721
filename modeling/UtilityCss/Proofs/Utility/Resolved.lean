import UtilityCss.Design.System
import UtilityCss.Proofs.Stylesheet.Node
import UtilityCss.Proofs.Theme.Lookup

/-!
# What utilities read of the theme

Utilities read values of the theme in the form in which they are written out, and nothing else of it.
Where two themes resolve all values the same, they make the same nodes for every class name.
-/

namespace UtilityCss

/-- Whether two themes resolve the same values, alone and with those nested in them. -/
structure Theme.ResolvesAlike (t t' : Theme) : Prop where
  resolve : ∀ value names, t.resolve value names = t'.resolve value names
  resolveWith : ∀ value names nested, t.resolveWith value names nested = t'.resolveWith value names nested

namespace Theme.ResolvesAlike

variable {t t' : Theme} (h : t.ResolvesAlike t')

include h

theorem spacingOf? (value : String) : spacingOf? t value = UtilityCss.spacingOf? t' value := by
  rw [UtilityCss.spacingOf?, UtilityCss.spacingOf?, h.resolve]

private theorem bareValue (value : String) (b : BareValue) :
    b.read? t value = b.read? t' value := by
  cases b with
  | spacing => exact h.spacingOf? value
  | _ => rfl

theorem magnitude? (r : ValueRule) (value : Option CandidateValue) (modifier : Option Argument) :
    r.magnitude? t value modifier = r.magnitude? t' value modifier := by
  simp only [ValueRule.magnitude?, ValueRule.fraction?, ValueRule.named?, ValueRule.default?, h.resolve,
    h.bareValue]

theorem alphaOf? (m : Argument) : alphaOf? t m = UtilityCss.alphaOf? t' m := by
  cases m <;> simp only [UtilityCss.alphaOf?, h.resolve]

theorem resolveColor? (keys : List String) (value : CandidateValue) (modifier : Option Argument) :
    resolveColor? t keys value modifier = UtilityCss.resolveColor? t' keys value modifier := by
  have hbase : baseColor? t keys value = baseColor? t' keys value := by
    simp only [baseColor?, h.resolve]
  simp only [UtilityCss.resolveColor?, hbase, h.alphaOf?]

theorem fontSizeNodes? (value : CandidateValue) (modifier : Option Argument) :
    fontSizeNodes? t value modifier = UtilityCss.fontSizeNodes? t' value modifier := by
  have hsize : fontSize? t value = fontSize? t' value := by
    cases value <;> simp only [fontSize?, h.resolveWith]
  have hline (m : Argument) : lineHeight? t m = lineHeight? t' m := by
    cases m <;> simp only [lineHeight?, h.resolve, h.spacingOf?]
  simp only [UtilityCss.fontSizeNodes?, hsize, hline]

theorem answerCall? (input : CallInput) (args : String) :
    answerCall? t input args = UtilityCss.answerCall? t' input args := by
  have hnamed (value : String) (fraction : Option String) (arg : String) :
      answerNamed? t value fraction arg = answerNamed? t' value fraction arg := by
    simp only [answerNamed?, h.resolve]
  simp only [UtilityCss.answerCall?, hnamed]

theorem answerText (value : CallInput) (modifier : Option CallInput) (text : String) :
    answerText t value modifier text = UtilityCss.answerText t' value modifier text := by
  have hcalls (opening : String) (input : CallInput) (text : String) :
      answerCalls? t opening input text = answerCalls? t' opening input text := by
    have hcall : UtilityCss.answerCall? t input = UtilityCss.answerCall? t' input :=
      funext (h.answerCall? input)
    rw [answerCalls?, answerCalls?, hcall]
  simp only [UtilityCss.answerText, answerModifier, hcalls]

theorem answerEach (value : CallInput) (modifier : Option CallInput) (ns : List Node) :
    answerEach t value modifier ns = UtilityCss.answerEach t' value modifier ns := by
  induction ns using forest_induction with
  | nil => rfl
  | cons n ns ihn ih =>
    have hnode : n.answer t value modifier = n.answer t' value modifier := by
      cases n with
      | decl property text important => simp only [Node.answer, h.answerText]
      | rule selector inner =>
        change UtilityCss.answerEach t value modifier inner = _ at ihn
        simp only [Node.answer, ihn]
        rfl
      | atRule name params inner =>
        change UtilityCss.answerEach t value modifier inner = _ at ihn
        simp only [Node.answer, ihn]
        rfl
      | statement => rfl
      | comment => rfl
    simp only [UtilityCss.answerEach, hnode, ih]

theorem nodes? (c : Candidate) (r : Recipe) : r.nodes? t c = r.nodes? t' c := by
  cases r with
  | valued rule output => simp only [Recipe.nodes?, ValueRule.resolve?, h.magnitude?]
  | colored keys output => simp only [Recipe.nodes?, h.resolveColor?]
  | declared body => simp only [Recipe.nodes?, customNodes?, h.answerEach]
  | aspectRatio =>
    have hratio (value : CandidateValue) : aspectRatio? t value = aspectRatio? t' value := by
      simp only [aspectRatio?, h.resolve]
    simp only [Recipe.nodes?, hratio]
  | fontSize => simp only [Recipe.nodes?, h.fontSizeNodes?]
  | _ => rfl

end Theme.ResolvesAlike

/-- Where themes resolve alike, a class name without variants stands for the same nodes. -/
theorem DesignSystem.generate?_eq_of_resolvesAlike {d : DesignSystem} {t : Theme}
    (h : d.theme.ResolvesAlike t) (c : Candidate) :
    ({ d with theme := t } : DesignSystem).generate? c = d.generate? c := by
  have hutilities (root : String) (kind : UtilityKind) :
      d.utilities.generate? t root kind c = d.utilities.generate? d.theme root kind c := by
    simp only [Utilities.generate?, h.nodes?]
  simp only [DesignSystem.generate?, hutilities, h.alphaOf?]

def ThemeEntry.written (e : ThemeEntry) : ThemeEntry :=
  { e with options := { e.options with isInline := true } }

namespace Theme

/-- A theme in which the entry of a key is inline. -/
def withInline (t : Theme) (key : String) : Theme :=
  { t with entries := t.entries.map fun e => if e.key == key then e.written else e }

variable {t : Theme} {key : String}

theorem get?_withInline (name : String) :
    (t.withInline key).get? name = (t.get? name).map fun e => if e.key == key then e.written else e := by
  rw [get?, withInline, List.find?_map]
  congr 2
  funext e
  simp only [Function.comp_apply]
  split <;> rfl

private theorem lookup_withInline (name : String) (value : Option String) :
    (t.withInline key).lookup name value =
      (t.lookup name value).map fun e => if e.key == key then e.written else e := by
  cases value with
  | none => exact get?_withInline name
  | some value =>
    simp only [lookup, get?_withInline]
    split
    · rfl
    · cases t.get? (name ++ "-" ++ escapeKeySegment value) with
      | some e => rfl
      | none =>
        cases t.get? (name ++ "-" ++ value) with
        | some e => rfl
        | none => split <;> rfl

theorem lookupIn_withInline (value : Option String) (names : List String) :
    (t.withInline key).lookupIn value names =
      (t.lookupIn value names).map fun e => if e.key == key then e.written else e := by
  rw [lookupIn, lookupIn, List.map_findSome?]
  congr 1
  funext name
  exact lookup_withInline name value

/-- An entry that is written as its value anyway may as well be inline. -/
theorem resolvesAlike_withInline (h : ∀ e ∈ t.entries, e.key = key → e.render = e.value) :
    t.ResolvesAlike (t.withInline key) := by
  have hrender (e : ThemeEntry) (he : e ∈ t.entries) :
      (if e.key == key then e.written else e).render = e.render := by
    split
    · next hkey =>
      rw [h e he (eq_of_beq hkey), ThemeEntry.render, ThemeEntry.written]
      simp
    · rfl
  have hget (name : String) :
      ((t.withInline key).get? name).map (·.render) = (t.get? name).map (·.render) := by
    rw [get?_withInline, Option.map_map]
    exact Option.map_congr fun e he => hrender e (mem_of_get? he).1
  have hmem {value : Option String} {names : List String} {e : ThemeEntry}
      (he : t.lookupIn value names = some e) : e ∈ t.entries := by
    obtain ⟨name, -, he⟩ := List.exists_of_findSome?_eq_some he
    exact mem_of_lookup he
  constructor
  · intro value names
    rw [resolve, resolve, lookupIn_withInline, Option.map_map]
    exact Option.map_congr fun e he => (hrender e (hmem he)).symm
  · intro value names nested
    have hnested (k suffix : String) : ((t.withInline key).get? k).map (fun e => (suffix, e.render)) =
        (t.get? k).map fun e => (suffix, e.render) := by
      have hpair := congrArg (Option.map (suffix, ·)) (hget k)
      rwa [Option.map_map, Option.map_map] at hpair
    rw [resolveWith, resolveWith, lookupIn_withInline, Option.map_map]
    refine Option.map_congr fun e he => ?_
    have hkey : (if e.key == key then e.written else e).key = e.key := by split <;> rfl
    simp only [Function.comp_apply, hrender e (hmem he), hkey, hnested]

end Theme

end UtilityCss
