import Mathlib.Data.List.DropRight
import Mathlib.Data.List.Induction
import UtilityCss.Proofs.Theme.Reachable

/-!
# What a theme holds of a key

An event removes keys or sets one of them. Only what sets a key behind the last event that removes
it counts for the theme: the last setting that is no default decides the value, and the first one
the place in the table. `entries_ofEvents` reads the whole table off the events in this way.
-/

namespace UtilityCss

namespace ThemeEvent

def removes : ThemeEvent → String → Bool
  | set k value _, key => k == key && value == "initial"
  | unsetNamespace name, key => inNamespace name key
  | unsetAll, _ => true
  | keyframes _, _ => false

def setting? : ThemeEvent → String → Option (String × ThemeOptions)
  | set k value options, key =>
    if k == key && value != "initial" then some (value, options) else none
  | _, _ => none

end ThemeEvent

/-- A value that an event gives to a key, with the place of the event among all of them. -/
structure Setting where
  place : Nat
  value : String
  options : ThemeOptions
  deriving DecidableEq, Repr

def settingAt? (key : String) (p : ThemeEvent × Nat) : Option Setting :=
  (p.1.setting? key).map fun (value, options) => ⟨p.2, value, options⟩

/-- What sets a key behind the last event that removes it. -/
def settings (events : List ThemeEvent) (key : String) : List Setting :=
  (events.zipIdx.rtakeWhile fun p => !p.1.removes key).filterMap (settingAt? key)

/-- Whether a setting is a default behind one that is none, which has no effect. -/
def Setting.isVoid (before : List Setting) (s : Setting) : Bool :=
  s.options.isDefault && before.any (!·.options.isDefault)

/-- The setting that gives the value: the last one that is no default if there is one, or else the
last one. -/
def deciding? (settings : List Setting) : Option Setting :=
  (settings.filter (!·.options.isDefault)).getLast?.or settings.getLast?

/-- Whether some setting that has an effect is no reference. -/
def Declares (settings : List Setting) : Prop :=
  ∃ before s after, settings = before ++ s :: after ∧ ¬ s.isVoid before ∧ ¬ s.options.isReference

/-- Whether a key was first set before another one. -/
def SetBefore (events : List ThemeEvent) (key key' : String) : Prop :=
  ∃ s ∈ (settings events key).head?, ∃ s' ∈ (settings events key').head?, s.place < s'.place

section Settings

variable {events : List ThemeEvent} {e : ThemeEvent} {key : String} {s : Setting}
  {before : List Setting}

/-- One event more removes all settings of a key, adds one, or leaves them as they are. -/
theorem settings_concat (events : List ThemeEvent) (e : ThemeEvent) (key : String) :
    settings (events ++ [e]) key = if e.removes key then [] else
      settings events key ++ (settingAt? key (e, events.length)).toList := by
  have hindex : (events ++ [e]).zipIdx = events.zipIdx ++ [(e, events.length)] := by
    rw [List.zipIdx_append]
    simp
  unfold settings
  rw [hindex, List.rtakeWhile_concat]
  by_cases h : e.removes key
  · simp [h]
  · cases hs : settingAt? key (e, events.length) <;> simp [h, hs]

private theorem settings_concat_of_removes (h : e.removes key) :
    settings (events ++ [e]) key = [] := by
  rw [settings_concat, if_pos h]

theorem settings_concat_of_setting?_eq_none (h : ¬ e.removes key) (hs : e.setting? key = none) :
    settings (events ++ [e]) key = settings events key := by
  rw [settings_concat, if_neg h, settingAt?, hs]
  exact List.append_nil _

private theorem place_lt_of_mem_settings (h : s ∈ settings events key) :
    s.place < events.length := by
  induction events using List.reverseRecOn with
  | nil => exact absurd h List.not_mem_nil
  | append_singleton events e ih =>
    rw [settings_concat] at h
    rw [List.length_append, List.length_singleton]
    split at h
    · exact absurd h List.not_mem_nil
    · rcases List.mem_append.1 h with h | h
      · have := ih h
        omega
      · rw [Option.mem_toList, settingAt?, Option.map_eq_some_iff] at h
        obtain ⟨_, _, rfl⟩ := h
        exact Nat.lt_succ_self _

theorem deciding?_concat (before : List Setting) (s : Setting) :
    deciding? (before ++ [s]) = if s.isVoid before then deciding? before else some s := by
  unfold deciding?
  rw [List.filter_append, List.getLast?_append, List.getLast?_append, Setting.isVoid]
  by_cases hs : s.options.isDefault
  · by_cases hbefore : before.any (!·.options.isDefault)
    · obtain ⟨r, hr, hdefault⟩ := List.any_eq_true.1 hbefore
      have hsome : ((before.filter (!·.options.isDefault)).getLast?).isSome := by
        rw [List.getLast?_isSome]
        exact List.ne_nil_of_mem (List.mem_filter.2 ⟨hr, hdefault⟩)
      obtain ⟨last, hlast⟩ := Option.isSome_iff_exists.1 hsome
      simp [hs, hbefore, hlast]
    · have hnone : before.filter (!·.options.isDefault) = [] := by
        simpa [List.filter_eq_nil_iff] using hbefore
      simp [hs, hbefore, hnone]
  · simp [hs]

theorem isDefault_of_deciding? (h : deciding? before = some s) :
    (!s.options.isDefault) = before.any (!·.options.isDefault) := by
  induction before using List.reverseRecOn generalizing s with
  | nil => simp [deciding?] at h
  | append_singleton before r ih =>
    rw [deciding?_concat] at h
    rw [List.any_append]
    split at h
    · next hvoid =>
      rw [Setting.isVoid, Bool.and_eq_true] at hvoid
      rw [ih h, hvoid.2, Bool.true_or]
    · next hvoid =>
      cases h
      rw [Setting.isVoid] at hvoid
      cases hd : r.options.isDefault <;> simp_all

private theorem not_declares_nil : ¬ Declares [] := by
  rintro ⟨before, s, after, h, -⟩
  exact List.append_ne_nil_of_right_ne_nil _ (List.cons_ne_nil _ _) h.symm

theorem declares_concat : Declares (before ++ [s]) ↔
    Declares before ∨ (¬ s.isVoid before ∧ ¬ s.options.isReference) := by
  constructor
  · rintro ⟨front, r, back, h, hr⟩
    rcases List.eq_nil_or_concat back with rfl | ⟨back, t, rfl⟩
    · obtain ⟨rfl, hs⟩ := List.append_inj' h rfl
      obtain rfl := (List.cons.inj hs).1
      exact .inr hr
    · rw [List.concat_eq_append, ← List.cons_append, ← List.append_assoc] at h
      obtain ⟨rfl, -⟩ := List.append_inj' h rfl
      exact .inl ⟨front, r, back, rfl, hr⟩
  · rintro (⟨front, r, back, rfl, hr⟩ | hs)
    · exact ⟨front, r, back ++ [s], by simp, hr⟩
    · exact ⟨before, s, [], rfl, hs⟩

end Settings

section Table

variable {es : List ThemeEntry} {key : String}

@[simp]
theorem ThemeEntry.key_override (e : ThemeEntry) (value : String) (options : ThemeOptions) :
    (e.override value options).key = e.key := by
  rw [ThemeEntry.override]
  split <;> rfl

/-- Setting a key changes the entry of that key alone. -/
theorem entryOf?_setEntry (k value : String) (options : ThemeOptions) (es : List ThemeEntry)
    (key : String) : entryOf? (setEntry k value options es) key =
      if k = key then
        some ((entryOf? es k).elim ⟨k, value, options, !options.isReference⟩
          (·.override value options))
      else entryOf? es key := by
  unfold entryOf?
  induction es with
  | nil => by_cases h : k = key <;> simp [setEntry, h]
  | cons e es ih =>
    rw [setEntry]
    by_cases he : e.key = k
    · by_cases h : k = key <;> simp [he, h]
    · by_cases h : k = key
      · subst h
        simp [he, ih]
      · simp only [beq_iff_eq, he, if_false, if_neg h] at ih ⊢
        rw [List.find?_cons, List.find?_cons, ih]

theorem map_key_setEntry (k value : String) (options : ThemeOptions) (es : List ThemeEntry) :
    (setEntry k value options es).map (·.key) =
      if (entryOf? es k).isSome then es.map (·.key) else es.map (·.key) ++ [k] := by
  unfold entryOf?
  induction es with
  | nil => rfl
  | cons e es ih =>
    rw [setEntry]
    by_cases he : e.key = k
    · simp [he]
    · have hfind : (e :: es).find? (·.key == k) = es.find? (·.key == k) :=
        List.find?_cons_of_neg (by simpa using he)
      rw [hfind, if_neg (by simpa using he), List.map_cons, ih]
      split <;> rfl

theorem entryOf?_filter_not (p : String → Bool) (es : List ThemeEntry) (key : String) :
    entryOf? (es.filter fun e => !p e.key) key = if p key then none else entryOf? es key := by
  unfold entryOf?
  induction es with
  | nil => simp
  | cons e es ih =>
    by_cases he : e.key = key
    · by_cases hp : p key <;> simp_all
    · by_cases hp : p e.key <;> simp_all

end Table

/-- Whether an entry says what the settings of its key do. -/
def ThemeEntry.Reflects (e : ThemeEntry) (settings : List Setting) : Prop :=
  (∃ s, deciding? settings = some s ∧ e.value = s.value ∧ e.options = s.options) ∧
    (e.emittable ↔ Declares settings)

/-- Whether a table has an entry for every key that is set, and says of it what its settings do. -/
def ReflectsAt (es : List ThemeEntry) (settings : List Setting) (key : String) : Prop :=
  (settings = [] ∧ entryOf? es key = none) ∨
    ∃ e, entryOf? es key = some e ∧ e.key = key ∧ e.Reflects settings

section Step

variable {d : ThemeDraft} {events : List ThemeEvent} {e : ThemeEvent}

private theorem reflects_new (key value : String) (options : ThemeOptions) (place : Nat) :
    (ThemeEntry.mk key value options !options.isReference).Reflects [⟨place, value, options⟩] := by
  have hvoid (s : Setting) : s.isVoid [] = false := by simp [Setting.isVoid]
  have hdecide (s : Setting) : deciding? [s] = some s := by
    rw [← List.nil_append [s], deciding?_concat, hvoid, if_neg Bool.false_ne_true]
  refine ⟨⟨_, hdecide _, rfl, rfl⟩, ?_⟩
  rw [← List.nil_append [_], declares_concat, hvoid]
  simp [not_declares_nil]

/-- A further setting of a key changes its entry as it changes the settings. -/
theorem ThemeEntry.Reflects.override {e : ThemeEntry} {before : List Setting} (h : e.Reflects before)
    (place : Nat) (value : String) (options : ThemeOptions) :
    (e.override value options).Reflects (before ++ [⟨place, value, options⟩]) := by
  obtain ⟨⟨s, hs, hvalue, hoptions⟩, hem⟩ := h
  have hvoid : Setting.isVoid before ⟨place, value, options⟩ =
      (options.isDefault && !e.options.isDefault) := by
    rw [Setting.isVoid, hoptions, isDefault_of_deciding? hs]
  unfold Reflects
  rw [deciding?_concat, declares_concat, hvoid, ThemeEntry.override]
  split
  · next h => exact ⟨⟨s, hs, hvalue, hoptions⟩, by simp [h, hem]⟩
  · next h => exact ⟨⟨_, rfl, rfl, rfl⟩, by simp [h, ← hem]⟩

theorem entries_step_of_setting?_eq_none (h : ∀ key, e.setting? key = none) :
    (d.step e).theme.entries = d.theme.entries.filter fun entry => !e.removes entry.key := by
  cases e with
  | set key value options =>
    have hinitial : value = "initial" := by
      simpa [ThemeEvent.setting?] using h key
    subst hinitial
    simp [ThemeDraft.step, ThemeDraft.remove, ThemeEvent.removes, Bool.beq_comm]
  | unsetNamespace => rfl
  | unsetAll => rfl
  | keyframes => simp [ThemeDraft.step, ThemeEvent.removes]

/-- All other events set one key and remove none. -/
theorem exists_of_setting?_ne_none (h : ¬ ∀ key, e.setting? key = none) :
    ∃ k value options, (d.step e).theme.entries = setEntry k value options d.theme.entries ∧
      ∀ key, settings (events ++ [e]) key =
        if k = key then settings events key ++ [⟨events.length, value, options⟩]
        else settings events key := by
  cases e with
  | set k value options =>
    have hinitial : value ≠ "initial" := by
      rintro rfl
      exact h fun key => by simp [ThemeEvent.setting?]
    refine ⟨k, value, options, ?_, fun key => ?_⟩
    · simp [ThemeDraft.step, hinitial]
    · by_cases hk : k = key <;>
        simp [settings_concat, ThemeEvent.removes, settingAt?, ThemeEvent.setting?, hinitial, hk]
  | _ => exact absurd (fun _ => rfl) h

/-- Each event keeps what a table says of its keys. -/
theorem reflectsAt_step (h : ∀ key, ReflectsAt d.theme.entries (settings events key) key)
    (key : String) : ReflectsAt (d.step e).theme.entries (settings (events ++ [e]) key) key := by
  by_cases hnone : ∀ key, e.setting? key = none
  · rw [entries_step_of_setting?_eq_none hnone, ReflectsAt, entryOf?_filter_not]
    by_cases hremoves : e.removes key
    · exact .inl ⟨settings_concat_of_removes hremoves, if_pos hremoves⟩
    · rw [if_neg hremoves, settings_concat_of_setting?_eq_none hremoves (hnone key)]
      exact h key
  · obtain ⟨k, value, options, hentries, hsettings⟩ := exists_of_setting?_ne_none hnone
    rw [hentries, hsettings, ReflectsAt, entryOf?_setEntry]
    by_cases hk : k = key
    · subst hk
      rw [if_pos rfl, if_pos rfl]
      right
      rcases h k with ⟨hempty, hfind⟩ | ⟨entry, hfind, hkey, hreflects⟩
      · rw [hempty, hfind]
        exact ⟨_, rfl, rfl, reflects_new _ _ _ _⟩
      · rw [hfind]
        exact ⟨_, rfl, (ThemeEntry.key_override _ _ _).trans hkey, hreflects.override _ _ _⟩
    · rw [if_neg hk, if_neg hk]
      exact h key

theorem ReflectsAt.exists_first {es : List ThemeEntry} {settings : List Setting} {key : String}
    (h : ReflectsAt es settings key) (hkey : key ∈ es.map (·.key)) :
    ∃ first rest, settings = first :: rest := by
  rcases h with ⟨-, hnone⟩ | ⟨_, -, _, ⟨s, hs, -⟩, -⟩
  · obtain ⟨entry, hentry, rfl⟩ := List.mem_map.1 hkey
    have hother := List.find?_eq_none.1 hnone entry hentry
    simp at hother
  · cases settings with
    | nil => cases hs
    | cons first rest => exact ⟨first, rest, rfl⟩

theorem pairwise_setBefore_step_of_setting?_eq_none (hnone : ∀ key, e.setting? key = none)
    (h : (d.theme.entries.map (·.key)).Pairwise (SetBefore events)) :
    ((d.step e).theme.entries.map (·.key)).Pairwise (SetBefore (events ++ [e])) := by
  rw [entries_step_of_setting?_eq_none hnone]
  have hsub : ((d.theme.entries.filter fun entry => !e.removes entry.key).map (·.key)).Sublist
      (d.theme.entries.map (·.key)) := List.filter_sublist.map _
  refine (h.sublist hsub).imp_of_mem fun {a b} ha hb hab => ?_
  have hsame (k : String)
      (hk : k ∈ (d.theme.entries.filter fun entry => !e.removes entry.key).map (·.key)) :
      settings (events ++ [e]) k = settings events k := by
    obtain ⟨entry, hentry, rfl⟩ := List.mem_map.1 hk
    have hstays := (List.mem_filter.1 hentry).2
    exact settings_concat_of_setting?_eq_none (by simpa using hstays) (hnone _)
  rwa [SetBefore, hsame a ha, hsame b hb]

theorem pairwise_setBefore_step
    (hkeys : ∀ key, ReflectsAt d.theme.entries (settings events key) key)
    (h : (d.theme.entries.map (·.key)).Pairwise (SetBefore events)) :
    ((d.step e).theme.entries.map (·.key)).Pairwise (SetBefore (events ++ [e])) := by
  by_cases hnone : ∀ key, e.setting? key = none
  · exact pairwise_setBefore_step_of_setting?_eq_none hnone h
  · obtain ⟨k, value, options, hentries, hsettings⟩ := exists_of_setting?_ne_none hnone
    have hhead (key : String) (s : Setting) (hs : s ∈ (settings events key).head?) :
        s ∈ (settings (events ++ [e]) key).head? := by
      rw [hsettings]
      split
      · rw [List.head?_append, hs]
        rfl
      · exact hs
    have hmono {a b : String} (hab : SetBefore events a b) : SetBefore (events ++ [e]) a b := by
      obtain ⟨s, hs, s', hs', hlt⟩ := hab
      exact ⟨s, hhead a s hs, s', hhead b s' hs', hlt⟩
    rw [hentries, map_key_setEntry]
    rcases hkeys k with ⟨hempty, hfind⟩ | ⟨entry, hfind, -⟩
    · -- A key without settings so far is set behind all others.
      rw [hfind, Option.isSome_none, if_neg Bool.false_ne_true, List.pairwise_append]
      refine ⟨h.imp hmono, List.pairwise_singleton _ _, ?_⟩
      intro a ha b hb
      obtain rfl := List.mem_singleton.1 hb
      obtain ⟨first, rest, hfirst⟩ := (hkeys a).exists_first ha
      have hmem : first ∈ settings events a := by
        rw [hfirst]
        exact List.mem_cons_self
      refine ⟨first, hhead a first (by rw [hfirst]; rfl), ⟨events.length, value, options⟩, ?_,
        place_lt_of_mem_settings hmem⟩
      rw [hsettings, if_pos rfl, hempty]
      rfl
    · rw [hfind, Option.isSome_some, if_pos rfl]
      exact h.imp hmono

/-- What a theme under construction holds once it has taken in some events. -/
theorem entries_foldl (events : List ThemeEvent) :
    (∀ key, ReflectsAt (events.foldl ThemeDraft.step {}).theme.entries (settings events key) key) ∧
      ((events.foldl ThemeDraft.step {}).theme.entries.map (·.key)).Pairwise
        (SetBefore events) := by
  induction events using List.reverseRecOn with
  | nil => exact ⟨fun _ => .inl ⟨rfl, rfl⟩, List.Pairwise.nil⟩
  | append_singleton events e ih =>
    obtain ⟨hkeys, horder⟩ := ih
    rw [List.foldl_append, List.foldl_cons, List.foldl_nil]
    exact ⟨reflectsAt_step hkeys, pairwise_setBefore_step hkeys horder⟩

private theorem mem_of_mem_settings {s : Setting} {key : String} (h : s ∈ settings events key) :
    ∃ e ∈ events, e.setting? key = some (s.value, s.options) := by
  obtain ⟨p, hp, hs⟩ := List.mem_filterMap.1 h
  obtain ⟨setting, hsetting, rfl⟩ := Option.map_eq_some_iff.1 hs
  exact ⟨p.1, (List.mem_zipIdx' ((List.rtakeWhile_suffix _ _).subset hp)).2 ▸ List.getElem_mem _,
    hsetting⟩

theorem not_setBefore_self (events : List ThemeEvent) (key : String) : ¬ SetBefore events key key := by
  rintro ⟨s, hs, s', hs', hlt⟩
  obtain rfl := Option.some.inj (hs.symm.trans hs')
  exact Nat.lt_irrefl _ hlt

/-- The keys of a theme are distinct. -/
theorem get?_of_mem {entry : ThemeEntry} (h : entry ∈ (Theme.ofEvents events).entries) :
    (Theme.ofEvents events).get? entry.key = some entry := by
  obtain ⟨before, after, hentries⟩ := List.append_of_mem h
  refine List.find?_eq_some_iff_append.2 ⟨beq_self_eq_true _, before, after, hentries, fun a ha => ?_⟩
  have horder : ((Theme.ofEvents events).entries.map (·.key)).Pairwise (SetBefore events) :=
    (entries_foldl events).2
  rw [hentries, List.map_append, List.map_cons, List.pairwise_append] at horder
  have hbefore := horder.2.2 a.key (List.mem_map_of_mem ha) entry.key List.mem_cons_self
  have hne : a.key ≠ entry.key := by
    intro hkey
    rw [hkey] at hbefore
    exact not_setBefore_self events _ hbefore
  simpa using hne

/-- An entry that may be declared was set by an event that is no reference. -/
theorem exists_setting_of_emittable {entry : ThemeEntry}
    (h : entry ∈ (Theme.ofEvents events).entries) (hem : entry.emittable) :
    ∃ e ∈ events, ∃ setting, e.setting? entry.key = some setting ∧ ¬ setting.2.isReference := by
  rcases (entries_foldl events).1 entry.key with ⟨-, hfind⟩ | ⟨found, hfind, -, -, hdeclares⟩
  · exact absurd (hfind.symm.trans (get?_of_mem h)) nofun
  · obtain rfl := Option.some.inj (hfind.symm.trans (get?_of_mem h))
    obtain ⟨before, s, after, hsettings, -, href⟩ := hdeclares.1 hem
    have hs : s ∈ settings events found.key := by
      rw [hsettings]
      exact List.mem_append_right _ List.mem_cons_self
    obtain ⟨e, he, hset⟩ := mem_of_mem_settings hs
    exact ⟨e, he, _, hset, href⟩

private theorem mem_keyframes_foldl {k : ThemeKeyframes}
    (h : k ∈ (events.foldl ThemeDraft.step {}).theme.keyframes) : .keyframes k ∈ events := by
  induction events using List.reverseRecOn with
  | nil => exact absurd h List.not_mem_nil
  | append_singleton events e ih =>
    rw [List.foldl_append, List.foldl_cons, List.foldl_nil] at h
    rw [List.mem_append, List.mem_singleton]
    cases e with
    | set key value options =>
      rw [ThemeDraft.step] at h
      split at h <;> exact .inl (ih h)
    | unsetNamespace => exact .inl (ih h)
    | unsetAll => exact .inl (ih h)
    | keyframes k' =>
      rcases List.mem_append.1 h with h | h
      · exact .inl (ih (List.mem_filter.1 h).1)
      · exact .inr (congrArg ThemeEvent.keyframes (List.mem_singleton.1 h))

/-- The keyframes of a theme are defined by an event. -/
theorem mem_of_mem_keyframes {k : ThemeKeyframes} (h : k ∈ (Theme.ofEvents events).keyframes) :
    .keyframes k ∈ events :=
  mem_keyframes_foldl (List.mem_filter.1 h).1

end Step

/-- A theme has an entry for each key that is set behind the last event that removes it. The last
setting that is no default decides the value and the options, or else the last one. The entry is
emittable if some setting that has an effect is no reference, and the entries stand in the order of
the first settings of their keys. -/
theorem entries_ofEvents (events : List ThemeEvent) :
    (∀ key, ((Theme.ofEvents events).get? key).isSome ↔ settings events key ≠ []) ∧
    (∀ key e, (Theme.ofEvents events).get? key = some e →
      e.key = key ∧
      (∃ s, deciding? (settings events key) = some s ∧ e.value = s.value ∧ e.options = s.options) ∧
      (e.emittable ↔ Declares (settings events key))) ∧
    ((Theme.ofEvents events).entries.map (·.key)).Pairwise (SetBefore events) := by
  obtain ⟨hkeys, horder⟩ := entries_foldl events
  have hget (key : String) : (Theme.ofEvents events).get? key =
      entryOf? (events.foldl ThemeDraft.step {}).theme.entries key := rfl
  refine ⟨fun key => ?_, fun key e he => ?_, horder⟩
  · rw [hget]
    rcases hkeys key with ⟨hempty, hfind⟩ | ⟨e, hfind, -, ⟨s, hs, -⟩, -⟩
    · simp [hempty, hfind]
    · have hne : settings events key ≠ [] := by
        intro hempty
        rw [hempty] at hs
        cases hs
      simp [hfind, hne]
  · rw [hget] at he
    rcases hkeys key with ⟨-, hfind⟩ | ⟨e', hfind, hkey, hdecides, hem⟩
    · rw [hfind] at he
      cases he
    · obtain rfl := Option.some.inj (hfind.symm.trans he)
      exact ⟨hkey, hdecides, hem⟩

/-- Events that unset a colour and set it again, first by a default and then by a reference, behind
which another default is void. -/
def colorEvents : List ThemeEvent :=
  [.set "--color-x" "gone" {}, .unsetNamespace "--color", .set "--size" "1rem" {},
    .set "--color-x" "red" { isDefault := true, isReference := true },
    .set "--color-x" "blue" { isReference := true },
    .set "--color-x" "green" { isDefault := true }]

theorem entries_ofEvents_color :
    ∃ e, (Theme.ofEvents colorEvents).get? "--color-x" = some e ∧ e.value = "blue" ∧
      (∃ s, deciding? (settings colorEvents "--color-x") = some s ∧ e.value = s.value ∧
        e.options = s.options) ∧
      ¬ Declares (settings colorEvents "--color-x") ∧ SetBefore colorEvents "--size" "--color-x" := by
  obtain ⟨-, hentries, horder⟩ := entries_ofEvents colorEvents
  have hget : (Theme.ofEvents colorEvents).get? "--color-x" =
      some ⟨"--color-x", "blue", { isReference := true }, false⟩ := by
    decide +kernel
  have hkeys : (Theme.ofEvents colorEvents).entries.map (·.key) = ["--size", "--color-x"] := by
    decide +kernel
  obtain ⟨-, hdecides, hem⟩ := hentries _ _ hget
  rw [hkeys, List.pairwise_pair] at horder
  exact ⟨_, hget, rfl, hdecides, fun h => Bool.false_ne_true (hem.2 h), horder⟩

end UtilityCss
