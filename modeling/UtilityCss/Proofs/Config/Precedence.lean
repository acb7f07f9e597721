import UtilityCss.Config.Theme
import UtilityCss.Proofs.Theme.Fold

/-!
# Theme blocks before configurations

What a configuration sets comes behind the theme blocks, and it is a default, so an entry of the
blocks that is none stays as it is. There is one way around that: the value `initial` unsets a key
whatever its options are. `get?_append_themeEvents` says that there is no other.
-/

namespace UtilityCss

/-- The keys and values that the theme of a configuration sets, in their order. -/
def Config.settings (c : Config) : List (String × String) :=
  (c.values ++ c.extend).flatMap fun p => p.2.settings [p.1]

def setEvents (options : ThemeOptions) (settings : List (String × String)) : List ThemeEvent :=
  settings.map fun p => .set p.1 p.2 options

theorem Config.themeEvents_eq (c : Config) :
    c.themeEvents = setEvents themeOptions c.settings := by
  rw [themeEvents, setEvents, settings, List.map_flatMap]

def IsFree (es : List ThemeEntry) (key : String) : Prop :=
  ∀ e, entryOf? es key = some e → e.options.isDefault

section Defaults

variable {d : ThemeDraft} {k key value : String} {options : ThemeOptions} {e : ThemeEntry}

/-- Setting a key to `initial` takes its entry away, and any other value overrides it or is put where
there is none. -/
theorem entryOf?_step_set (d : ThemeDraft) (k value : String) (options : ThemeOptions)
    (key : String) : entryOf? (d.step (.set k value options)).theme.entries key =
      if k = key then
        if value = "initial" then none
        else some ((entryOf? d.theme.entries k).elim ⟨k, value, options, !options.isReference⟩
          (·.override value options))
      else entryOf? d.theme.entries key := by
  by_cases hvalue : value = "initial"
  · subst hvalue
    have hentries : (d.step (.set k "initial" options)).theme.entries =
        d.theme.entries.filter fun e => !(e.key == k) := rfl
    rw [hentries, entryOf?_filter_not (· == k), if_pos rfl]
    simp only [beq_iff_eq, eq_comm (a := key)]
  · have hentries : (d.step (.set k value options)).theme.entries =
        setEntry k value options d.theme.entries := by
      simp [ThemeDraft.step, hvalue]
    rw [hentries, entryOf?_setEntry, if_neg hvalue]

theorem entryOf?_step_default (hdefault : options.isDefault) (hset : k = key → value ≠ "initial")
    (he : entryOf? d.theme.entries key = some e) (hnormal : ¬ e.options.isDefault) :
    entryOf? (d.step (.set k value options)).theme.entries key = some e := by
  rw [entryOf?_step_set]
  by_cases hkey : k = key
  · have hkeep : e.override value options = e := by
      rw [ThemeEntry.override]
      simp [hdefault, hnormal]
    rw [if_pos hkey, if_neg (hset hkey), hkey, he, Option.elim_some, hkeep]
  · rw [if_neg hkey]
    exact he

/-- A default does not put an entry that is none where there is no such entry. -/
theorem IsFree.step (h : IsFree d.theme.entries key) (hdefault : options.isDefault) :
    IsFree (d.step (.set k value options)).theme.entries key := by
  intro e he
  rw [entryOf?_step_set] at he
  split at he
  · next hkey =>
    subst hkey
    split at he
    · cases he
    · obtain rfl := Option.some.inj he
      cases hold : entryOf? d.theme.entries k with
      | none => exact hdefault
      | some old =>
        rw [Option.elim_some, ThemeEntry.override]
        split
        · exact h old hold
        · exact hdefault
  · exact h e he

theorem IsFree.foldl (h : IsFree d.theme.entries key) (hdefault : options.isDefault)
    (settings : List (String × String)) :
    IsFree ((setEvents options settings).foldl ThemeDraft.step d).theme.entries key := by
  induction settings generalizing d with
  | nil => exact h
  | cons p settings ih =>
    rw [setEvents, List.map_cons, List.foldl_cons]
    exact ih (h.step hdefault)

theorem entryOf?_foldl_defaults (hdefault : options.isDefault)
    (he : entryOf? d.theme.entries key = some e) (hnormal : ¬ e.options.isDefault)
    (settings : List (String × String)) :
    entryOf? ((setEvents options settings).foldl ThemeDraft.step d).theme.entries key = some e ↔
      ∀ p ∈ settings, p.1 = key → p.2 ≠ "initial" := by
  induction settings generalizing d with
  | nil => exact iff_of_true he (List.forall_mem_nil _)
  | cons p settings ih =>
    obtain ⟨k, value⟩ := p
    rw [setEvents, List.map_cons, List.foldl_cons, List.forall_mem_cons]
    change entryOf? ((setEvents options settings).foldl ThemeDraft.step _).theme.entries key = _ ↔ _
    by_cases hset : k = key → value ≠ "initial"
    · rw [ih (entryOf?_step_default hdefault hset he hnormal)]
      exact (and_iff_right hset).symm
    · obtain ⟨rfl, hvalue⟩ := Classical.not_imp.1 hset
      obtain rfl := not_not.1 hvalue
      -- once the entry is gone, only defaults can follow in its place
      have hfree : IsFree (d.step (.set k "initial" options)).theme.entries k := by
        intro e he
        rw [entryOf?_step_set, if_pos rfl, if_pos rfl] at he
        cases he
      refine iff_of_false (fun h => hnormal ?_) (fun h => h.1 rfl rfl)
      exact hfree.foldl hdefault settings e h

end Defaults

namespace Theme

/-- An entry that is no default has the same value, options and emittability behind all settings of
a configuration exactly if none of them sets its key to `initial`. -/
theorem get?_append_themeEvents {events : List ThemeEvent} {c : Config} {key : String}
    {e : ThemeEntry} (he : (ofEvents events).get? key = some e) (hnormal : ¬ e.options.isDefault) :
    (ofEvents (events ++ c.themeEvents)).get? key = some e ↔
      ∀ p ∈ c.settings, p.1 = key → p.2 ≠ "initial" := by
  have hdefault : Config.themeOptions.isDefault := rfl
  have hfold : (ofEvents (events ++ c.themeEvents)).get? key =
      entryOf? ((events ++ c.themeEvents).foldl ThemeDraft.step {}).theme.entries key := rfl
  rw [hfold, List.foldl_append, Config.themeEvents_eq]
  exact entryOf?_foldl_defaults hdefault he hnormal c.settings

def colorConfig (value : String) : Config :=
  let colors := JsonValue.object [("DEFAULT", .string value), ("y", .string "blue")]
  { values := [("colors", .object [("x", colors)])] }

theorem get?_append_themeEvents_color :
    (ofEvents [.set "--color-x" "red" {}]).get? "--color-x" = some ⟨"--color-x", "red", {}, true⟩ ∧
      (ofEvents ([.set "--color-x" "red" {}] ++ (colorConfig "green").themeEvents)).get?
        "--color-x" = some ⟨"--color-x", "red", {}, true⟩ := by
  have he : (ofEvents [.set "--color-x" "red" {}]).get? "--color-x" =
      some ⟨"--color-x", "red", {}, true⟩ := by decide +kernel
  refine ⟨he, (get?_append_themeEvents he (by decide)).2 ?_⟩
  have hsettings : (colorConfig "green").settings =
      [("--color-x", "green"), ("--color-x-y", "blue")] := by decide +kernel
  rw [hsettings]
  decide

/-- A configuration that sets the colour to `initial` takes the one of the theme block away. -/
theorem get?_append_initial : ∃ (events : List ThemeEvent) (c : Config) (key : String)
    (e : ThemeEntry), (ofEvents events).get? key = some e ∧ ¬ e.options.isDefault ∧
      (ofEvents (events ++ c.themeEvents)).get? key = none :=
  ⟨[.set "--color-x" "red" {}], colorConfig "initial", "--color-x", ⟨"--color-x", "red", {}, true⟩,
    by decide +kernel⟩

end Theme

end UtilityCss
