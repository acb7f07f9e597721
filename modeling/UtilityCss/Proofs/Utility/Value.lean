import UtilityCss.Proofs.Candidate.Texts
import UtilityCss.Proofs.Color.Alpha
import UtilityCss.Proofs.Theme.Lookup
import UtilityCss.Utility.Value

/-!
# Texts of utility values

Whatever a utility finds for a candidate is all that is asked of texts if the values of the theme are
and what stands in brackets in the candidate: keywords fit, and a bare value is tame.
-/

namespace UtilityCss

/-- The texts of a rule that its values are made of fit whatever is asked. -/
structure ValueRule.IsSound (r : ValueRule) : Prop where
  themeKeys : ∀ key ∈ r.themeKeys, IsTame key
  keywords : ∀ p ∈ r.keywords, Fits [p.2]
  defaultKey : ∀ key ∈ r.defaultKey, IsTame key
  defaultValue : ∀ s ∈ r.defaultValue, Fits [s]

instance (r : ValueRule) : Decidable r.IsSound :=
  decidable_of_iff ((∀ key ∈ r.themeKeys, IsTame key) ∧ (∀ p ∈ r.keywords, Fits [p.2]) ∧
      (∀ key ∈ r.defaultKey, IsTame key) ∧ ∀ s ∈ r.defaultValue, Fits [s])
    ⟨fun h => ⟨h.1, h.2.1, h.2.2.1, h.2.2.2⟩,
      fun h => ⟨h.themeKeys, h.keywords, h.defaultKey, h.defaultValue⟩⟩

theorem mem_of_lookup {α : Type} {table : List (String × α)} {key : String} {a : α}
    (h : table.lookup key = some a) : (key, a) ∈ table := by
  obtain ⟨l₁, l₂, rfl, -⟩ := List.lookup_eq_some_iff.1 h
  exact List.mem_append_right _ List.mem_cons_self

theorem isTame_stepWithUnit {unit value s : String} (hunit : IsTame unit) (hvalue : IsTame value)
    (h : stepWithUnit? unit value = some s) : IsTame s := by
  rw [stepWithUnit?] at h
  split at h
  · cases h
    exact isTame_append.2 ⟨hvalue, hunit⟩
  · cases h

theorem isTame_countWithUnit {unit value s : String} (hunit : IsTame unit)
    (h : countWithUnit? unit value = some s) : IsTame s := by
  obtain ⟨n, -, rfl⟩ := Option.map_eq_some_iff.1 h
  exact isTame_append.2 ⟨isTame_toString n, hunit⟩

section Values

variable {P : String → Prop} {t : Theme} {value s : String} (hP : TextLaws P)

include hP

private theorem holds_negate (h : P s) : P (negate s) := hP.surround h (by decide)

theorem holds_of_lookup {table : List (String × String)} {key : String}
    (htable : ∀ p ∈ table, Fits [p.2]) (h : table.lookup key = some value) : P value :=
  hP.fixed (htable (key, value) (mem_of_lookup h))

variable (ht : t.ValuesHold P)

include ht

theorem holds_spacingOf (hvalue : IsTame value) (h : spacingOf? t value = some s) : P s := by
  rw [spacingOf?] at h
  split at h
  · obtain ⟨unit, hunit, rfl⟩ := Option.map_eq_some_iff.1 h
    have hspacing : P unit := Theme.holds_resolve hP ht (by decide) (by simp) hunit
    exact hP.surround₂ hspacing (hP.tame hvalue) (by decide) (by decide)
  · cases h

private theorem holds_bareValue (hvalue : IsTame value) {b : BareValue}
    (h : b.read? t value = some s) :
    P s := by
  cases b with
  | nothing => cases h
  | spacing => exact holds_spacingOf hP ht hvalue h
  | integer =>
    obtain ⟨-, -, rfl⟩ := Option.map_eq_some_iff.1 h
    exact hP.tame hvalue
  | pixels => exact hP.tame (isTame_countWithUnit (by decide) h)
  | percent => exact hP.tame (isTame_stepWithUnit (by decide) hvalue h)
  | degrees => exact hP.tame (isTame_stepWithUnit (by decide) hvalue h)
  | milliseconds => exact hP.tame (isTame_countWithUnit (by decide) h)
  | tracks =>
    obtain ⟨n, -, h⟩ := Option.bind_eq_some_iff.1 h
    split at h
    · cases h
    · cases h
      exact hP.surround (hP.tame (isTame_toString n)) (by decide)
  | cursor =>
    rw [BareValue.read?] at h
    split at h
    · cases h
      exact hP.tame hvalue
    · cases h
  | stopPosition =>
    obtain ⟨-, -, rfl⟩ := Option.map_eq_some_iff.1 h
    exact hP.tame hvalue
  | fontWeight => exact holds_of_lookup hP (by decide) h

namespace ValueRule

variable {r : ValueRule} {modifier : Option Argument} {v : Option CandidateValue} (hr : r.IsSound)

include hr

private theorem holds_default (h : r.default? t = some s) : P s := by
  simp only [default?, Option.orElse_eq_orElse, Option.orElse_eq_or, Option.or_eq_some_iff,
    Option.bind_eq_some_iff] at h
  rcases h with ⟨key, hmem, h⟩ | ⟨-, h | ⟨-, key, hmem, h⟩⟩
  · exact Theme.holds_resolve hP ht (by simpa using hr.defaultKey key hmem) (by simp) h
  · exact hP.fixed (hr.defaultValue s h)
  · have hkey := hr.themeKeys key (List.mem_of_mem_head? hmem)
    exact Theme.holds_resolve hP ht (by simpa using hkey) (by simp) h

private theorem holds_named (hvalue : IsTame value) (h : r.named? t value = some s) : P s := by
  simp only [named?, Option.orElse_eq_orElse, Option.orElse_eq_or, Option.or_eq_some_iff] at h
  rcases h with h | ⟨-, h | ⟨-, h⟩⟩
  · exact holds_of_lookup hP hr.keywords h
  · exact Theme.holds_resolve hP ht hr.themeKeys (by simpa using hvalue.isKeyText) h
  · exact holds_bareValue hP ht hvalue h

private theorem holds_fraction (hvalue : IsKeyText value) (h : r.fraction? t value = some s) :
    P s := by
  rw [fraction?] at h
  split at h
  · cases h
    cases hresolve : t.resolve (some value) r.themeKeys with
    | some s => exact Theme.holds_resolve hP ht hr.themeKeys (by simpa using hvalue) hresolve
    | none => exact hP.surround (hP.key hvalue) (by decide)
  · cases h

theorem holds_magnitude (hv : ∀ value ∈ v, value.Holds P) (h : r.magnitude? t v modifier = some s) :
    P s := by
  rw [magnitude?.eq_def] at h
  split at h
  · exact holds_fraction hP ht hr ((hv _ rfl).2 _ rfl) h
  · split at h
    · cases h
    · exact holds_named hP ht hr (isTame_of_isPlainName (hv _ rfl).1) h
  · split at h
    · cases h
    · cases h
      exact hv _ rfl
  · split at h
    · cases h
    · exact holds_default hP ht hr h

theorem holds_resolve {c : Candidate} (hv : ∀ value ∈ c.value?, value.Holds P)
    (h : r.resolve? t c = some s) : P s := by
  rw [resolve?] at h
  split at h
  · split at h
    · obtain ⟨s, hs, rfl⟩ := Option.map_eq_some_iff.1 h
      exact holds_negate hP (holds_magnitude hP ht hr hv hs)
    · cases h
  · exact holds_magnitude hP ht hr hv h

end ValueRule

theorem holds_alphaOf {m : Argument} (hm : m.Holds fun s => P (Text.trim s))
    (h : alphaOf? t m = some s) : P s := by
  have htrim := hm.trim_text hP
  cases m with
  | arbitrary =>
    rw [alphaOf?] at h
    exact holds_normalizeAlpha hP htrim h
  | named value =>
    simp only [alphaOf?, Option.orElse_eq_orElse, Option.orElse_eq_or, Option.or_eq_some_iff] at h
    rcases h with h | ⟨-, h⟩
    · have hkey : IsKeyText value := (isTame_of_isPlainName hm).isKeyText
      exact Theme.holds_resolve hP ht (by decide) (by simpa using hkey) h
    · exact holds_normalizeAlpha hP htrim h

private theorem holds_baseColor {keys : List String} (hkeys : ∀ key ∈ keys, IsTame key)
    {v : CandidateValue}
    (hv : v.Holds P) (h : baseColor? t keys v = some s) : P s := by
  rw [baseColor?.eq_def] at h
  split at h
  · cases h
    exact hP.fixed (by decide)
  · cases h
    exact hP.fixed (by decide)
  · cases h
    exact hP.fixed (by decide)
  · have hkey := (isTame_of_isPlainName hv.1).isKeyText
    exact Theme.holds_resolve hP ht hkeys (by simpa using hkey) h
  · split at h
    · cases h
      exact hv
    · cases h
  · split at h
    · cases h
      exact hv
    · cases h

theorem holds_resolveColor {keys : List String} (hkeys : ∀ key ∈ keys, IsTame key)
    {v : CandidateValue} {modifier : Option Argument} (hv : v.Holds P)
    (hm : ∀ m ∈ modifier, m.Holds fun s => P (Text.trim s))
    (h : resolveColor? t keys v modifier = some s) : P s := by
  obtain ⟨base, hbase, h⟩ := Option.bind_eq_some_iff.1 h
  have hcolor := holds_baseColor hP ht hkeys hv hbase
  cases modifier with
  | none =>
    cases h
    exact hcolor
  | some m =>
    dsimp only at h
    split at h
    · cases h
    · obtain ⟨alpha, halpha, h⟩ := Option.bind_eq_some_iff.1 h
      cases h
      exact holds_withAlpha hP hcolor (holds_alphaOf hP ht (hm m rfl) halpha)

end Values

end UtilityCss
