import UtilityCss.Proofs.Config.Precedence
import UtilityCss.Proofs.Number.Text
import UtilityCss.Proofs.Theme.Path

/-!
# Reading values of configurations by their paths

A text or number in an object of a configuration is an entry of the theme, under the key that its
path gives with all that may not stand in a name escaped. The look-up of the path itself escapes dots
only, and it does so after it has tried the key as it is. So it finds the value exactly if no other
character has to be escaped and, where there are dots, no value has the key with bare ones.
-/

namespace UtilityCss

namespace JsonValue

/-- Whether a value holds another at the end of a path through fields of objects. -/
inductive HoldsAt : JsonValue → List String → JsonValue → Prop
  | here (v : JsonValue) : HoldsAt v [] v
  | field {fields : List (String × JsonValue)} {name : String} {v leaf : JsonValue}
      {path : List String} (hmem : (name, v) ∈ fields) (h : HoldsAt v path leaf) :
      HoldsAt (object fields) (name :: path) leaf

variable {v leaf : JsonValue} {fields : List (String × JsonValue)} {text key : String}
  {before path : List String}

private theorem mem_fieldSettings {p : String × JsonValue} (h : p ∈ fields)
    {setting : String × String}
    (hsetting : setting ∈ p.2.settings (before ++ [escapeKeySegment p.1])) :
    setting ∈ fieldSettings before fields := by
  induction fields with
  | nil => cases h
  | cons field fields ih =>
    rw [fieldSettings, List.mem_append]
    obtain rfl | hmem := List.mem_cons.1 h
    · exact .inl hsetting
    · exact .inr (ih hmem)

theorem mem_settings_of_holdsAt (h : v.HoldsAt path leaf) (htext : leaf.scalar? = some text)
    (hkey : keyPathToProperty (before ++ path.map escapeKeySegment) = some key) :
    (key, text) ∈ v.settings before := by
  induction h generalizing before with
  | here leaf =>
    rw [List.map_nil, List.append_nil] at hkey
    cases leaf with
    | string s => simpa [settings, scalar?, hkey, eq_comm] using htext
    | number n => simpa [settings, scalar?, hkey, eq_comm] using htext
    | null => cases htext
    | bool b => cases htext
    | list items => cases htext
    | object fields => cases htext
  | field hmem h ih =>
    rw [List.map_cons, List.append_cons] at hkey
    rw [settings]
    exact mem_fieldSettings hmem (ih htext hkey)

end JsonValue

theorem JsonValue.ne_initial_of_scalar? {leaf : JsonValue} {text : String}
    (htext : leaf.scalar? = some text) (hset : leaf ≠ .string "initial") : text ≠ "initial" := by
  rintro rfl
  cases leaf with
  | string s =>
    obtain rfl := Option.some.inj htext
    exact hset rfl
  | number n => exact n.text_ne_initial (Option.some.inj htext)
  | null => cases htext
  | bool b => cases htext
  | list items => cases htext
  | object fields => cases htext

section Unique

variable {d : ThemeDraft} {key text : String} {options : ThemeOptions}

theorem entryOf?_foldl_of_not_mem {settings : List (String × String)}
    (h : key ∉ settings.map (·.1)) (d : ThemeDraft) :
    entryOf? ((setEvents options settings).foldl ThemeDraft.step d).theme.entries key =
      entryOf? d.theme.entries key := by
  induction settings generalizing d with
  | nil => rfl
  | cons p settings ih =>
    rw [List.map_cons, List.mem_cons, not_or] at h
    rw [setEvents, List.map_cons, List.foldl_cons]
    refine (ih h.2 _).trans ?_
    rw [entryOf?_step_set, if_neg (Ne.symm h.1)]

theorem entryOf?_foldl_of_count_le_one (options : ThemeOptions) {settings : List (String × String)}
    (hmem : (key, text) ∈ settings) (hcount : (settings.map (·.1)).count key ≤ 1)
    (htext : text ≠ "initial") :
    entryOf? ((setEvents options settings).foldl ThemeDraft.step {}).theme.entries key =
      some ⟨key, text, options, !options.isReference⟩ := by
  obtain ⟨before, behind, rfl⟩ := List.append_of_mem hmem
  rw [List.map_append, List.map_cons, List.count_append, List.count_cons_self] at hcount
  have hbefore : key ∉ before.map (·.1) := List.count_eq_zero.1 (by omega)
  have hbehind : key ∉ behind.map (·.1) := List.count_eq_zero.1 (by omega)
  have hevents : setEvents options (before ++ (key, text) :: behind) =
      setEvents options before ++ .set key text options :: setEvents options behind := by
    rw [setEvents, List.map_append, List.map_cons]
    rfl
  rw [hevents, List.foldl_append, List.foldl_cons, entryOf?_foldl_of_not_mem hbehind,
    entryOf?_step_set, if_pos rfl, if_neg htext, entryOf?_foldl_of_not_mem hbefore]
  rfl

end Unique

namespace Config

variable {c : Config} {name text : String} {v leaf : JsonValue} {path : List String}

/-- A text or number of a configuration whose key nothing else sets is an entry of the theme. The
look-up of its path ends at this entry exactly if dots are all that is escaped in the key and no
entry has the key with bare dots. -/
theorem lookupPath_leaf_iff (hv : (name, v) ∈ c.values ++ c.extend) (hleaf : v.HoldsAt path leaf)
    (htext : leaf.scalar? = some text) (hset : leaf ≠ .string "initial")
    (hname : IsAlphanumeric name) (hpath : ∀ s ∈ path, Chars.IsSegment s.toList)
    (hcount : (c.settings.map (·.1)).count (escapeKeySegment (plainKey name path)) ≤ 1) :
    (Theme.ofEvents c.themeEvents).get? (escapeKeySegment (plainKey name path)) =
        some ⟨escapeKeySegment (plainKey name path), text, themeOptions, false⟩ ∧
      ((Theme.ofEvents c.themeEvents).lookupPath (bracketPath name path) =
          some ⟨escapeKeySegment (plainKey name path), text, themeOptions, false⟩ ↔
        (∀ s ∈ path, ∀ c ∈ s.toList, Chars.isIdentifierChar c ∨ c = '.') ∧
          ((∀ s ∈ path, ∀ c ∈ s.toList, Chars.isIdentifierChar c) ∨
            (Theme.ofEvents c.themeEvents).get? (plainKey name path) = none)) := by
  have hsegments : ∀ s ∈ path.map escapeKeySegment, s ≠ "" := by
    rw [List.forall_mem_map]
    intro s hs hempty
    have hescape := toList_escapeKeySegment s
    rw [hempty] at hescape
    exact (hpath s hs).1 (Chars.escapeKey_eq_nil_iff.1 hescape.symm)
  have hkey : keyPathToProperty ([name] ++ path.map escapeKeySegment) =
      some (escapeKeySegment (plainKey name path)) := by
    rw [List.singleton_append, keyPathToProperty_eq hsegments, plainKey_map hname]
  have hmem : (escapeKeySegment (plainKey name path), text) ∈ c.settings :=
    List.mem_flatMap.2 ⟨(name, v), hv, JsonValue.mem_settings_of_holdsAt hleaf htext hkey⟩
  have hinitial : text ≠ "initial" := JsonValue.ne_initial_of_scalar? htext hset
  have hentry : (Theme.ofEvents c.themeEvents).get? (escapeKeySegment (plainKey name path)) =
      some ⟨escapeKeySegment (plainKey name path), text, themeOptions, false⟩ := by
    have hfold := entryOf?_foldl_of_count_le_one themeOptions hmem hcount hinitial
    rwa [← themeEvents_eq] at hfold
  exact ⟨hentry, Theme.lookupPath_eq_some_iff hname hpath hentry⟩

def spacingConfig (name value : String) : Config :=
  { values := [("spacing", .object [(name, .string value)])] }

theorem lookupPath_leaf_iff_spacing :
    (Theme.ofEvents (spacingConfig "0.5" "2px").themeEvents).lookupPath "spacing[0.5]" =
      some ⟨"--spacing-0\\.5", "2px", themeOptions, false⟩ := by
  have hleaf : (JsonValue.object [("0.5", .string "2px")]).HoldsAt ["0.5"] (.string "2px") :=
    .field List.mem_cons_self (.here _)
  have hname : IsAlphanumeric "spacing" := ⟨by decide, by decide⟩
  have hpath : ∀ s ∈ ["0.5"], Chars.IsSegment s.toList :=
    List.forall_mem_singleton.2 ⟨by decide, by decide⟩
  have hkey : escapeKeySegment (plainKey "spacing" ["0.5"]) = "--spacing-0\\.5" := by decide +kernel
  have hcount : ((spacingConfig "0.5" "2px").settings.map (·.1)).count
      (escapeKeySegment (plainKey "spacing" ["0.5"])) ≤ 1 := by decide +kernel
  have hread := (lookupPath_leaf_iff (c := spacingConfig "0.5" "2px") List.mem_cons_self hleaf rfl
    (by simp) hname hpath hcount).2.2 ⟨by decide, .inr (by decide +kernel)⟩
  rw [hkey] at hread
  exact hread

/-- A slash is escaped in the key of a value, but not by the look-up of its path. -/
theorem lookupPath_leaf_ne :
    (Theme.ofEvents (spacingConfig "1/2" "50%").themeEvents).get? "--spacing-1\\/2" =
        some ⟨"--spacing-1\\/2", "50%", themeOptions, false⟩ ∧
      (Theme.ofEvents (spacingConfig "1/2" "50%").themeEvents).lookup "--spacing" (some "1/2") =
        some ⟨"--spacing-1\\/2", "50%", themeOptions, false⟩ ∧
      (Theme.ofEvents (spacingConfig "1/2" "50%").themeEvents).lookupPath "spacing[1/2]" = none := by
  decide +kernel

end Config

end UtilityCss
