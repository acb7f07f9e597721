import UtilityCss.Proofs.Text.Pieces
import UtilityCss.Proofs.Theme.Reachable

/-!
# Texts from the theme

What a utility writes for a value of a theme is all that the values of the theme are: the key of the
value is a name of the namespace with a value of the class name behind it.
-/

namespace UtilityCss

def Theme.ValuesHold (P : String → Prop) (t : Theme) : Prop := ∀ e ∈ t.entries, P e.value

/-- Whether a scan passes over all values of a theme. -/
def Theme.IsClosed (t : Theme) : Prop := t.ValuesHold (Passes .part)

namespace Theme

variable {P : String → Prop} {t : Theme} {key name : String} {names : List String} {value : Option String}
  {e : ThemeEntry} {s : String}

theorem get?_of_lookup (h : t.lookup name value = some e) :
    (value = none ∧ t.get? name = some e) ∨
      ∃ v ∈ value, t.get? (name ++ "-" ++ escapeKeySegment v) = some e ∨
        t.get? (name ++ "-" ++ v) = some e ∨
        t.get? (name ++ "-" ++ Text.replaceChar '.' "_" v) = some e := by
  cases value with
  | none => exact .inl ⟨rfl, h⟩
  | some v =>
    rw [lookup] at h
    split at h
    · cases h
    · simp only [Option.orElse_eq_orElse, Option.orElse_eq_or, Option.or_eq_some_iff] at h
      refine .inr ⟨v, rfl, ?_⟩
      rcases h with h | ⟨-, h | ⟨-, h⟩⟩
      · exact .inl h
      · exact .inr (.inl h)
      · split at h
        · exact .inr (.inr h)
        · cases h

theorem mem_of_lookup (h : t.lookup name value = some e) : e ∈ t.entries := by
  rcases get?_of_lookup h with ⟨-, h⟩ | ⟨v, -, h | h | h⟩ <;> exact (mem_of_get? h).1

theorem holds_key_of_lookup (hP : TextLaws P) (h : t.lookup name value = some e)
    (hname : IsTame name) (hvalue : ∀ v ∈ value, IsKeyText v) : P e.key := by
  have hdash : IsTame (name ++ "-") := isTame_append.2 ⟨hname, by decide⟩
  rcases get?_of_lookup h with ⟨-, h⟩ | ⟨v, hv, h | h | h⟩
  · rw [(mem_of_get? h).2]
    exact hP.tame hname
  · rw [(mem_of_get? h).2]
    exact hP.escapedKey hdash v
  · rw [(mem_of_get? h).2]
    exact hP.key (isKeyText_append.2 ⟨hdash.isKeyText, hvalue v hv⟩)
  · have hreplaced : IsKeyText (Text.replaceChar '.' "_" v) :=
      (hvalue v hv).replaceChar '.' (by decide)
    rw [(mem_of_get? h).2]
    exact hP.key (isKeyText_append.2 ⟨hdash.isKeyText, hreplaced⟩)

theorem holds_render (hP : TextLaws P) (hvalue : P e.value) (hkey : P e.key) : P e.render := by
  rw [ThemeEntry.render]
  split
  · exact hvalue
  · exact hP.surround₂ hkey hvalue (by decide) (by decide)

/-- What a utility writes for a value of the theme is all that is asked of the values. -/
theorem holds_resolve (hP : TextLaws P) (ht : t.ValuesHold P) (hnames : ∀ name ∈ names, IsTame name)
    (hvalue : ∀ v ∈ value, IsKeyText v) (h : t.resolve value names = some s) : P s := by
  obtain ⟨e, he, rfl⟩ := Option.map_eq_some_iff.1 h
  obtain ⟨name, hname, he⟩ := List.exists_of_findSome?_eq_some he
  exact holds_render hP (ht e (mem_of_lookup he))
    (holds_key_of_lookup hP he (hnames name hname) hvalue)

theorem holds_resolveValue (ht : t.ValuesHold P) (h : t.resolveValue value names = some s) :
    P s := by
  obtain ⟨e, he, rfl⟩ := Option.map_eq_some_iff.1 h
  obtain ⟨name, -, he⟩ := List.exists_of_findSome?_eq_some he
  exact ht e (mem_of_lookup he)

end Theme

end UtilityCss
