import UtilityCss.Proofs.Theme.Fold

/-!
# Which keyframes a theme keeps

Of several keyframes of a name the last ones count. They are dropped if an animation that named them
was unset, unless one that is left names them. What was unset is looked at when all events are in: it
makes no difference whether the animation was unset before the keyframes were defined or behind them.
-/

namespace UtilityCss

/-- Whether an entry is an animation that names some keyframes. -/
def ThemeEntry.Animates (e : ThemeEntry) (name : String) : Prop :=
  isAnimationKey e.key ∧ mentionsName e.value name

/-- Whether some keyframes are the last ones of their name that are defined. -/
def IsLastDefinition (events : List ThemeEvent) (k : ThemeKeyframes) : Prop :=
  ∃ before after, events = before ++ .keyframes k :: after ∧
    ∀ k', .keyframes k' ∈ after → k'.name ≠ k.name

/-- Whether some event removes an animation that names some keyframes. -/
def UnsetsAnimation (events : List ThemeEvent) (name : String) : Prop :=
  ∃ before e after, events = before ++ e :: after ∧
    ∃ entry ∈ (Theme.ofEvents before).entries, e.removes entry.key ∧ entry.Animates name

section Events

variable {events : List ThemeEvent} {e : ThemeEvent} {k : ThemeKeyframes} {name : String}

private theorem not_isLastDefinition_nil : ¬ IsLastDefinition [] k := by
  rintro ⟨before, after, h, -⟩
  exact List.append_ne_nil_of_right_ne_nil _ (List.cons_ne_nil _ _) h.symm

/-- Keyframes stay the last ones of their name until others of the name are defined. -/
theorem isLastDefinition_concat : IsLastDefinition (events ++ [e]) k ↔
    e = .keyframes k ∨ (IsLastDefinition events k ∧ ∀ k', e = .keyframes k' → k'.name ≠ k.name) := by
  constructor
  · rintro ⟨before, after, h, hlast⟩
    rcases List.eq_nil_or_concat after with rfl | ⟨after, e', rfl⟩
    · obtain ⟨-, he⟩ := List.append_inj' h rfl
      exact .inl (List.cons.inj he).1
    · rw [List.concat_eq_append, ← List.cons_append, ← List.append_assoc] at h
      obtain ⟨rfl, he⟩ := List.append_inj' h rfl
      obtain rfl := (List.cons.inj he).1
      rw [List.concat_eq_append] at hlast
      refine .inr ⟨⟨before, after, rfl, fun k' hk' => hlast k' (List.mem_append_left _ hk')⟩, ?_⟩
      rintro k' rfl
      exact hlast k' (List.mem_append_right _ (List.mem_singleton_self _))
  · rintro (rfl | ⟨⟨before, after, rfl, hlast⟩, he⟩)
    · exact ⟨events, [], rfl, fun _ h => absurd h List.not_mem_nil⟩
    · refine ⟨before, after ++ [e], by simp, fun k' hk' => ?_⟩
      rcases List.mem_append.1 hk' with hk' | hk'
      · exact hlast k' hk'
      · exact he k' (List.mem_singleton.1 hk').symm

private theorem not_unsetsAnimation_nil : ¬ UnsetsAnimation [] name := by
  rintro ⟨before, e, after, h, -⟩
  exact List.append_ne_nil_of_right_ne_nil _ (List.cons_ne_nil _ _) h.symm

theorem unsetsAnimation_concat : UnsetsAnimation (events ++ [e]) name ↔
    UnsetsAnimation events name ∨
      ∃ entry ∈ (Theme.ofEvents events).entries, e.removes entry.key ∧ entry.Animates name := by
  constructor
  · rintro ⟨before, e', after, h, hentry⟩
    rcases List.eq_nil_or_concat after with rfl | ⟨after, e'', rfl⟩
    · obtain ⟨rfl, he⟩ := List.append_inj' h rfl
      obtain rfl := (List.cons.inj he).1
      exact .inr hentry
    · rw [List.concat_eq_append, ← List.cons_append, ← List.append_assoc] at h
      obtain ⟨rfl, -⟩ := List.append_inj' h rfl
      exact .inl ⟨before, e', after, rfl, hentry⟩
  · rintro (⟨before, e', after, rfl, hentry⟩ | hentry)
    · exact ⟨before, e', after ++ [e], by simp, hentry⟩
    · exact ⟨events, e, [], rfl, hentry⟩

end Events

section Step

variable {d : ThemeDraft} {events : List ThemeEvent} {e : ThemeEvent} {k : ThemeKeyframes}
  {name : String}

/-- Each event notes the values of the animations that it removes. -/
theorem unset_step (d : ThemeDraft) (e : ThemeEvent) :
    (d.step e).unset = d.unset ++ (d.theme.entries.filter fun entry =>
      e.removes entry.key && isAnimationKey entry.key).map (·.value) := by
  cases e with
  | set key value options =>
    by_cases hvalue : value = "initial"
    · subst hvalue
      simp [ThemeDraft.step, ThemeDraft.remove, ThemeEvent.removes, Bool.beq_comm, Bool.and_comm]
    · simp [ThemeDraft.step, ThemeEvent.removes, hvalue]
  | unsetNamespace name =>
    simp [ThemeDraft.step, ThemeDraft.remove, ThemeEvent.removes, Bool.and_comm]
  | unsetAll => simp [ThemeDraft.step, ThemeDraft.remove, ThemeEvent.removes]
  | keyframes k => simp [ThemeDraft.step, ThemeEvent.removes]

theorem mem_keyframes_step : k ∈ (d.step e).theme.keyframes ↔
    e = .keyframes k ∨ (k ∈ d.theme.keyframes ∧ ∀ k', e = .keyframes k' → k'.name ≠ k.name) := by
  cases e with
  | set key value options =>
    rw [ThemeDraft.step]
    split <;> simp [ThemeDraft.remove]
  | unsetNamespace name => simp [ThemeDraft.step, ThemeDraft.remove]
  | unsetAll => simp [ThemeDraft.step, ThemeDraft.remove]
  | keyframes k' =>
    simp only [ThemeDraft.step, List.mem_append, List.mem_filter, List.mem_singleton, bne_iff_ne,
      ThemeEvent.keyframes.injEq, forall_eq']
    rw [or_comm, eq_comm, ne_comm]

/-- What a theme under construction has noted of the animations that were unset. -/
theorem any_unset_foldl (events : List ThemeEvent) (name : String) :
    (events.foldl ThemeDraft.step {}).unset.any (mentionsName · name) ↔
      UnsetsAnimation events name := by
  induction events using List.reverseRecOn with
  | nil => exact ⟨nofun, fun h => absurd h not_unsetsAnimation_nil⟩
  | append_singleton events e ih =>
    rw [List.foldl_append, List.foldl_cons, List.foldl_nil, unset_step, List.any_append,
      Bool.or_eq_true, ih, unsetsAnimation_concat]
    refine or_congr Iff.rfl ?_
    simp [ThemeEntry.Animates, Theme.ofEvents, ThemeDraft.finish, and_assoc]

private theorem mem_keyframes_foldl_iff (events : List ThemeEvent) (k : ThemeKeyframes) :
    k ∈ (events.foldl ThemeDraft.step {}).theme.keyframes ↔ IsLastDefinition events k := by
  induction events using List.reverseRecOn with
  | nil => exact ⟨fun h => absurd h List.not_mem_nil, fun h => absurd h not_isLastDefinition_nil⟩
  | append_singleton events e ih =>
    rw [List.foldl_append, List.foldl_cons, List.foldl_nil, mem_keyframes_step, ih,
      isLastDefinition_concat]

end Step

namespace Theme

/-- A theme has the last keyframes of a name exactly if no animation that named them was unset, be it
before they were defined or behind, or if an animation that is left names them. -/
theorem mem_keyframes_ofEvents (events : List ThemeEvent) (k : ThemeKeyframes) :
    k ∈ (ofEvents events).keyframes ↔ IsLastDefinition events k ∧
      (UnsetsAnimation events k.name → ∃ e ∈ (ofEvents events).entries, e.Animates k.name) := by
  have hkeeps : (events.foldl ThemeDraft.step {}).keeps k ↔
      (UnsetsAnimation events k.name → ∃ e ∈ (ofEvents events).entries, e.Animates k.name) := by
    rw [ThemeDraft.keeps, Bool.or_eq_true, Bool.not_eq_true', ← Bool.not_eq_true, any_unset_foldl,
      ← imp_iff_not_or]
    simp [ThemeEntry.Animates, ofEvents, ThemeDraft.finish]
  rw [← hkeeps, ← mem_keyframes_foldl_iff]
  exact List.mem_filter

/-- An animation is unset, and behind that keyframes are defined that it named. -/
def spinEvents : List ThemeEvent :=
  [.set "--animate-spin" "spin 1s" {}, .unsetAll, .keyframes ⟨"spin", .atRule "keyframes" "spin" [], {}⟩]

/-- The last of these events defines keyframes, and the theme does not have them. -/
theorem keyframes_ofEvents_spin : ∃ before k, spinEvents = before ++ [.keyframes k] ∧
    IsLastDefinition spinEvents k ∧ k ∉ (ofEvents spinEvents).keyframes := by
  have hempty : (ofEvents spinEvents).keyframes.isEmpty := by decide +kernel
  refine ⟨[_, _], ⟨"spin", _, _⟩, rfl, ⟨[_, _], [], rfl, nofun⟩, ?_⟩
  rw [List.isEmpty_iff.1 hempty]
  exact List.not_mem_nil

end Theme

end UtilityCss
