/-!
# Computations that may fail

Where a computation with a step that may fail succeeds, the step has succeeded, and where it fails, some
step has failed.
-/

namespace UtilityCss

theorem bind_eq_ok {ε α β : Type} {e : Except ε α} {f : α → Except ε β} {b : β} :
    e >>= f = .ok b ↔ ∃ a, e = .ok a ∧ f a = .ok b := by
  cases e with
  | error => exact ⟨nofun, nofun⟩
  | ok a => exact ⟨fun h => ⟨a, rfl, h⟩, fun ⟨_, ha, h⟩ => by cases ha; exact h⟩

theorem bind_eq_error {ε α β : Type} {e : Except ε α} {f : α → Except ε β} {x : ε} :
    e >>= f = .error x ↔ e = .error x ∨ ∃ a, e = .ok a ∧ f a = .error x := by
  cases e with
  | error y =>
    refine ⟨fun h => .inl ?_, ?_⟩
    · cases h
      rfl
    · rintro (h | ⟨_, h, -⟩) <;> cases h
      rfl
  | ok a =>
    refine ⟨fun h => .inr ⟨a, rfl, h⟩, ?_⟩
    rintro (h | ⟨_, h, hf⟩) <;> cases h
    exact hf

theorem map_eq_error {ε α β : Type} {e : Except ε α} {f : α → β} {x : ε} :
    e.map f = .error x ↔ e = .error x := by
  cases e with
  | error => exact ⟨fun h => by cases h; rfl, fun h => by cases h; rfl⟩
  | ok => exact ⟨nofun, nofun⟩

theorem map_eq_ok {ε α β : Type} {e : Except ε α} {f : α → β} {b : β} :
    e.map f = .ok b ↔ ∃ a, e = .ok a ∧ f a = b := by
  cases e with
  | error => exact ⟨nofun, nofun⟩
  | ok a => exact ⟨fun h => ⟨a, rfl, Except.ok.inj h⟩, fun ⟨_, ha, h⟩ => by cases ha; exact congrArg _ h⟩

theorem mapError_eq_ok {ε ε' α : Type} {e : Except ε α} {f : ε → ε'} {a : α} :
    e.mapError f = .ok a ↔ e = .ok a := by
  cases e with
  | error => exact ⟨nofun, nofun⟩
  | ok => exact ⟨fun h => congrArg _ (Except.ok.inj h), fun h => congrArg _ (Except.ok.inj h)⟩

/-- A result with a property that can be computed. -/
theorem exists_ok {ε α : Type} {e : Except ε α} (p : α → Bool) (h : e.toOption.any p = true) :
    ∃ a, e = .ok a ∧ p a = true := by
  cases e with
  | error => exact absurd h Bool.false_ne_true
  | ok a => exact ⟨a, rfl, h⟩

theorem exists_of_mem_tryMapM {ε α β : Type} {f : α → Except ε β} {as : List α} {bs : List β}
    (h : as.mapM f = .ok bs) {b : β} (hb : b ∈ bs) : ∃ a ∈ as, f a = .ok b := by
  induction as generalizing bs with
  | nil =>
    cases h
    exact absurd hb List.not_mem_nil
  | cons a as ih =>
    rw [List.mapM_cons] at h
    obtain ⟨b', hb', h⟩ := bind_eq_ok.1 h
    obtain ⟨bs', hbs', h⟩ := bind_eq_ok.1 h
    cases h
    rcases List.mem_cons.1 hb with rfl | hb
    · exact ⟨a, List.mem_cons_self, hb'⟩
    · obtain ⟨a', ha', hread⟩ := ih hbs' hb
      exact ⟨a', List.mem_cons_of_mem _ ha', hread⟩

/-- A map of a list fails where it fails for a member. -/
theorem exists_of_tryMapM_eq_error {ε α β : Type} {f : α → Except ε β} {as : List α} {x : ε}
    (h : as.mapM f = .error x) : ∃ a ∈ as, f a = .error x := by
  induction as with
  | nil => cases h
  | cons a as ih =>
    rw [List.mapM_cons] at h
    obtain ha | ⟨b, -, h⟩ := bind_eq_error.1 h
    · exact ⟨a, List.mem_cons_self, ha⟩
    · obtain has | ⟨bs, -, h⟩ := bind_eq_error.1 h
      · obtain ⟨a', ha', hx⟩ := ih has
        exact ⟨a', List.mem_cons_of_mem _ ha', hx⟩
      · cases h

/-- A map of a list that succeeds does so for each member. -/
theorem exists_ok_of_tryMapM {ε α β : Type} {f : α → Except ε β} {as : List α} {bs : List β}
    (h : as.mapM f = .ok bs) {a : α} (ha : a ∈ as) : ∃ b, f a = .ok b := by
  induction as generalizing bs with
  | nil => exact absurd ha List.not_mem_nil
  | cons a' as ih =>
    rw [List.mapM_cons] at h
    obtain ⟨b, hb, h⟩ := bind_eq_ok.1 h
    obtain ⟨bs, hbs, -⟩ := bind_eq_ok.1 h
    rcases List.mem_cons.1 ha with rfl | ha
    · exact ⟨b, hb⟩
    · exact ih hbs ha

/-- A fold fails where one of its steps does. -/
theorem exists_of_foldlM_eq_error {ε α β : Type} {step : β → α → Except ε β} {as : List α} {b : β}
    {x : ε} (h : as.foldlM step b = .error x) : ∃ a ∈ as, ∃ b, step b a = .error x := by
  induction as generalizing b with
  | nil => cases h
  | cons a as ih =>
    rw [List.foldlM_cons] at h
    obtain ha | ⟨b', -, h⟩ := bind_eq_error.1 h
    · exact ⟨a, List.mem_cons_self, b, ha⟩
    · obtain ⟨a', ha', hx⟩ := ih h
      exact ⟨a', List.mem_cons_of_mem _ ha', hx⟩

/-- What every step of a fold keeps is kept by the fold. -/
theorem foldlM_invariant {ε α β : Type} {P : β → Prop} {step : β → α → Except ε β} {as : List α}
    {b b' : β} (hstep : ∀ a ∈ as, ∀ b b', P b → step b a = .ok b' → P b') (hb : P b)
    (h : as.foldlM step b = .ok b') : P b' := by
  induction as generalizing b with
  | nil =>
    cases h
    exact hb
  | cons a as ih =>
    rw [List.foldlM_cons] at h
    obtain ⟨b₁, hb₁, h⟩ := bind_eq_ok.1 h
    obtain ⟨ha, has⟩ := List.forall_mem_cons.1 hstep
    exact ih has (ha b b₁ hb hb₁) h

end UtilityCss
