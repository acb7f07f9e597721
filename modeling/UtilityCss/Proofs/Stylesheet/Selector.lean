import UtilityCss.Proofs.Stylesheet.Inert
import UtilityCss.Stylesheet.Selector

/-!
# Selectors that a scan passes over

A selector that a scan passes over can be split at its commas and trimmed, and gets something in the
place of `&`, and a scan passes over all that comes of it.
-/

namespace UtilityCss

namespace Place

variable {k : TextKind} {p q : Place} {c : Char} {s : List Char}

def IsSound : Place → Prop
  | quoted q _ | escaped (some q) _ => isQuote q
  | _ => True

theorem isSound_next (hp : p.IsSound) (h : p.next k c = some q) : q.IsSound := by
  cases p with
  | escaped quote d =>
    cases quote with
    | none =>
      rw [next] at h
      split at h
      · cases h
      · cases h
        trivial
    | some quote =>
      cases h
      exact hp
  | quoted quote d =>
    rw [next] at h
    split at h
    · cases h
      exact hp
    · split at h
      · cases h
        trivial
      · cases h
        exact hp
  | plain d slash =>
    by_cases hquote : isQuote c
    · rw [next, if_neg, if_pos hquote] at h
      · cases h
        exact hquote
      · simp only [isQuote, Bool.or_eq_true, beq_iff_eq] at hquote
        rcases hquote with rfl | rfl <;> decide
    · rw [next, if_neg hquote] at h
      grind [IsSound]

theorem isSound_run (hp : p.IsSound) (h : p.run k s = some q) : q.IsSound := by
  induction s generalizing p with
  | nil =>
    cases h
    exact hp
  | cons c s ih =>
    obtain ⟨r, hr, h⟩ := Option.bind_eq_some_iff.1 h
    exact ih (isSound_next hp hr) h

/-- Blanks at the end of a selector stand outside quotes, and none of them is escaped. -/
theorem plain_of_run_blanks {slash : Bool} (hp : p.IsSound) (hs : ∀ c ∈ s, isBlank c)
    (h : p.run .selector s = some (plain 0 slash)) : ∃ slash, p = plain 0 slash := by
  induction s generalizing p with
  | nil => exact ⟨slash, Option.some.inj h⟩
  | cons c s ih =>
    obtain ⟨r, hr, h⟩ := Option.bind_eq_some_iff.1 h
    obtain ⟨slash', rfl⟩ := ih (isSound_next hp hr) (fun c hc => hs c (List.mem_cons_of_mem _ hc)) h
    have hblank := hs c List.mem_cons_self
    have htame : Chars.isTame c := Chars.isTame_of (by decide) hblank
    cases p with
    | escaped quote d =>
      cases quote with
      | none => grind [next, TextKind.isSelector]
      | some quote => cases hr
    | quoted quote d =>
      have hne : c ≠ quote := by
        rintro rfl
        simp only [IsSound, isQuote, Bool.or_eq_true, beq_iff_eq] at hp
        rcases hp with rfl | rfl <;> exact absurd hblank (by decide)
      rw [next] at hr
      grind
    | plain d slash =>
      rw [Chars.next_tame htame] at hr
      cases hr
      exact ⟨slash, rfl⟩

end Place

namespace Chars

variable {s t : List Char} {c : Char}

/-- Blanks around a selector can be taken away. -/
theorem Passes.trim (h : Passes .selector s) : Passes .selector (Chars.trim s) := by
  obtain ⟨slash, h⟩ := h.trimStart
  obtain ⟨u, hu, hs⟩ := exists_trimEnd (Chars.trimStart s)
  rw [hs, Place.run_append] at h
  obtain ⟨p, hp, h⟩ := Option.bind_eq_some_iff.1 h
  obtain ⟨slash, rfl⟩ := Place.plain_of_run_blanks
    (Place.isSound_run (p := .plain 0 false) trivial hp) hu h
  exact ⟨slash, hp⟩

/-- The brackets that a scan counts are among those that a split of the text waits for. -/
def Matches (n : Nesting) : Place → Prop
  | .plain d _ => n.quote = none ∧ d ≤ (n.closers.filter (· != '\x7d')).length
  | .quoted q d => n.quote = some q ∧ d ≤ (n.closers.filter (· != '\x7d')).length
  | .escaped _ _ => False

section Matches

variable {k : TextKind} {n : Nesting} {p q : Place} {d : Nat} {slash slash' : Bool}

private theorem length_filter_tail (closers : List Char) :
    (closers.filter (· != '\x7d')).length ≤ (closers.tail.filter (· != '\x7d')).length + 1 ∧
      (closers.head? = some '\x7d' →
        (closers.tail.filter (· != '\x7d')).length = (closers.filter (· != '\x7d')).length) := by
  cases closers with
  | nil => simp
  | cons e es =>
    rw [List.filter_cons, List.tail_cons, List.head?_cons, Option.some_inj]
    split
    · next he => exact ⟨Nat.le_refl _, fun hbrace => absurd he (by simp [hbrace])⟩
    · exact ⟨Nat.le_succ _, fun _ => rfl⟩

private theorem Matches.next_quoted {quote : Char} (hn : Matches n (.quoted quote d))
    (hc : c ≠ '\\')
    (h : (Place.quoted quote d).next k c = some q) : Matches (n.next c) q := by
  obtain ⟨hquote, hdepth⟩ := hn
  rw [Place.next, if_neg (by simpa using hc)] at h
  rw [Nesting.next, hquote]
  dsimp only
  split at h
  · next hend =>
    cases h
    rw [if_pos hend]
    exact ⟨rfl, hdepth⟩
  · next hend =>
    cases h
    rw [if_neg hend]
    exact ⟨hquote, hdepth⟩

private theorem Matches.next_opening (hn : Matches n (.plain d slash)) (hc : c = '(' ∨ c = '[') :
    Matches (n.next c) (.plain (d + 1) slash') := by
  obtain ⟨hquote, hdepth⟩ := hn
  rw [Nesting.next, hquote]
  rcases hc with rfl | rfl
  · exact ⟨rfl, by simpa [closer?, isQuote] using hdepth⟩
  · exact ⟨rfl, by simpa [closer?, isQuote] using hdepth⟩

private theorem Matches.next_closing (hn : Matches n (.plain d slash)) (hc : c = ')' ∨ c = ']') :
    Matches (n.next c) (.plain (d - 1) slash') := by
  obtain ⟨hquote, hdepth⟩ := hn
  have hclass : isQuote c = false ∧ closer? c = none := by rcases hc with rfl | rfl <;> exact ⟨rfl, rfl⟩
  have htail := (length_filter_tail n.closers).1
  rw [Nesting.next, hquote]
  dsimp only
  rw [hclass.1, if_neg Bool.false_ne_true, hclass.2]
  dsimp only
  split
  · exact ⟨rfl, by dsimp only; omega⟩
  · exact ⟨hquote, by omega⟩

/-- Braces and other characters change no count. -/
private theorem Matches.next_other (hn : Matches n (.plain d slash)) (hquote : ¬ isQuote c)
    (hopen : ¬ (c = '(' ∨ c = '[')) (hclose : ¬ (c = ')' ∨ c = ']')) :
    Matches (n.next c) (.plain d slash') := by
  obtain ⟨hnone, hdepth⟩ := hn
  rw [Nesting.next, hnone]
  dsimp only
  rw [if_neg hquote]
  by_cases hbrace : c = '\x7b'
  · subst hbrace
    exact ⟨rfl, by simpa [closer?] using hdepth⟩
  · have hcloser : closer? c = none := by
      unfold closer?
      grind
    rw [hcloser]
    dsimp only
    split
    · next hpop =>
      simp only [Bool.and_eq_true, beq_iff_eq] at hpop
      have hend : c = '\x7d' := by
        have hany : (c = ')' ∨ c = ']') ∨ c = '\x7d' := by simpa [isCloser] using hpop.1
        exact hany.resolve_left hclose
      have htail := (length_filter_tail n.closers).2 (hpop.2.trans (congrArg some hend))
      exact ⟨rfl, by dsimp only; omega⟩
    · exact ⟨hnone, hdepth⟩

theorem Matches.next (hn : Matches n p) (hc : c ≠ '\\') (h : p.next k c = some q) :
    Matches (n.next c) q := by
  cases p with
  | escaped => exact absurd hn id
  | quoted quote d => exact hn.next_quoted hc h
  | plain d slash =>
    rw [Place.next, if_neg (by simpa using hc)] at h
    split at h
    · next hquote =>
      cases h
      rw [Nesting.next, hn.1]
      dsimp only
      rw [if_pos hquote]
      exact ⟨rfl, hn.2⟩
    · next hquote =>
      split at h
      · next hopen =>
        cases h
        exact hn.next_opening (by simpa using hopen)
      · next hopen =>
        split at h
        · next hclose =>
          split at h
          · cases h
          · cases h
            exact hn.next_closing (by simpa using hclose)
        · next hclose =>
          obtain ⟨slash', rfl⟩ : ∃ slash', q = .plain d slash' := by grind
          exact hn.next_other hquote (by simpa using hopen) (by simpa using hclose)

end Matches

theorem Matches.plain {n : Nesting} {p : Place} (hn : Matches n p) (htop : n.isTop) :
    ∃ slash, p = .plain 0 slash := by
  simp only [Nesting.isTop, Bool.and_eq_true, Option.isNone_iff_eq_none, List.isEmpty_iff] at htop
  cases p with
  | plain d slash =>
    obtain ⟨-, hdepth⟩ := hn
    rw [htop.2] at hdepth
    obtain rfl : d = 0 := Nat.le_zero.1 hdepth
    exact ⟨slash, rfl⟩
  | quoted =>
    rw [hn.1] at htop
    exact absurd htop.1 (Option.some_ne_none _)
  | escaped => exact absurd hn id

/-- An escaped character changes neither side. -/
theorem Matches.escape {k : TextKind} {n : Nesting} {p q : Place} (hn : Matches n p)
    (h : p.run k ('\\' :: c :: s) = some q) :
    ∃ r, Matches n r ∧ r.run k s = some q ∧ ∀ t, p.run k ('\\' :: c :: t) = r.run k t := by
  cases p with
  | escaped => exact absurd hn id
  | quoted quote d => exact ⟨.quoted quote d, hn, h, fun _ => rfl⟩
  | plain d slash =>
    have hstep (t : List Char) : (Place.plain d slash).run k ('\\' :: c :: t) =
        ((Place.escaped none d).next k c).bind fun r => r.run k t := rfl
    rw [hstep] at h
    obtain ⟨r, hr, h⟩ := Option.bind_eq_some_iff.1 h
    refine ⟨r, ?_, h, fun t => ?_⟩
    · rw [Place.next] at hr
      split at hr
      · cases hr
      · cases hr
        exact hn
    · rw [hstep, hr]
      rfl

theorem passes_segmentFrom {k : TextKind} {sep : Char} (hsep : isTame sep) {n : Nesting} {p : Place}
    {slash : Bool} (hn : Matches n p) (h : p.run k s = some (.plain 0 slash)) :
    (∃ slash, p.run k (segmentFrom sep n s).1 = some (.plain 0 slash)) ∧
      ∀ t ∈ (segmentFrom sep n s).2, Passes k t := by
  fun_induction segmentFrom sep n s generalizing p with
  | case1 => exact ⟨⟨slash, h⟩, fun _ ht => absurd ht List.not_mem_nil⟩
  | case2 => exact ⟨⟨slash, h⟩, fun _ ht => absurd ht List.not_mem_nil⟩
  | case3 n c s part parts hparts ih =>
    obtain ⟨r, hr, h, hrun⟩ := hn.escape h
    have ih := ih hr h
    rw [hparts] at ih
    exact ⟨by rw [hrun]; exact ih.1, ih.2⟩
  | case4 n c s hlast hescape htop part parts hparts ih =>
    simp only [Bool.and_eq_true, beq_iff_eq] at htop
    obtain ⟨slash', rfl⟩ := hn.plain htop.1.1.1.2
    rw [Place.run_cons, htop.1.1.1.1, next_tame hsep] at h
    have ih := ih (p := .plain 0 false) ⟨hn.1, hn.2⟩ h
    rw [hparts] at ih
    refine ⟨⟨slash', rfl⟩, ?_⟩
    intro t ht
    rcases List.mem_cons.1 ht with rfl | ht
    · exact ih.1
    · exact ih.2 t ht
  | case5 n c s hlast hescape htop part parts hparts ih =>
    obtain ⟨r, hr, h⟩ := Option.bind_eq_some_iff.1 h
    have hc : c ≠ '\\' := by
      rintro rfl
      cases s with
      | nil => exact hlast rfl rfl
      | cons d s => exact hescape d s rfl rfl
    have ih := ih (hn.next hc hr) h
    rw [hparts] at ih
    refine ⟨?_, ih.2⟩
    rw [Place.run_cons, hr]
    exact ih.1

theorem passes_of_mem_segment {k : TextKind} {sep : Char} (hsep : isTame sep) (h : Passes k s) :
    ∀ t ∈ segment sep s, Passes k t := by
  obtain ⟨slash, h⟩ := h
  obtain ⟨hpart, hparts⟩ := passes_segmentFrom hsep (n := {}) (p := .plain 0 false)
    ⟨rfl, Nat.le_refl 0⟩ h
  intro t ht
  rcases List.mem_cons.1 ht with rfl | ht
  · exact hpart
  · exact hparts t ht

theorem ahead_next {k : TextKind} {p q : Place} (hp : p.ahead = []) (hc : c ≠ '\\')
    (h : p.next k c = some q) : q.ahead = [] := by
  cases p with
  | escaped => cases hp
  | quoted => exact (Place.next_quoted hc h).2.2
  | plain => exact (Place.next_plain hc h).2.2.1

/-- What stands in the place of `&` changes nothing for a scan, as `&` does not. -/
theorem run_replaceNesting {parent : List Char} (hparent : Inert .selector 0 parent) {p q : Place}
    (hp : p.IsSound) (hahead : p.ahead = []) (h : p.run .selector s = some q) :
    p.run .selector (replaceNesting parent s) = some q := by
  fun_induction replaceNesting parent s generalizing p with
  | case1 => exact h
  | case2 => exact h
  | case3 c s ih =>
    obtain ⟨r, hr, h⟩ := Option.bind_eq_some_iff.1 h
    obtain ⟨r', hr', h⟩ := Option.bind_eq_some_iff.1 h
    rw [Place.run_cons, hr, Option.bind_some, Place.run_cons, hr', Option.bind_some]
    refine ih (Place.isSound_next (Place.isSound_next hp hr) hr') ?_ h
    cases p with
    | escaped => cases hahead
    | quoted quote d =>
      cases hr
      cases hr'
      rfl
    | plain d slash =>
      cases hr
      grind [Place.next, Place.ahead]
  | case4 c s hlast hescape hc ih =>
    obtain rfl := eq_of_beq hc
    obtain ⟨r, hr, h⟩ := Option.bind_eq_some_iff.1 h
    have ih := ih (Place.isSound_next hp hr) (ahead_next hahead (by decide) hr) h
    cases p with
    | escaped => cases hahead
    | quoted quote d =>
      have hquote : r = .quoted quote d := by
        have hne : '&' ≠ quote := by
          rintro rfl
          exact absurd hp (by simp [Place.IsSound, isQuote])
        grind [Place.next]
      rw [Place.run_append_of ((hparent d).2 quote hp), ← hquote]
      exact ih
    | plain d slash =>
      cases slash with
      | true => simp [Place.next, isQuote, endsPrelude, TextKind.isSelector] at hr
      | false =>
        have hplain : r = .plain d false := by
          simpa [Place.next, isQuote, endsPrelude, TextKind.isSelector, eq_comm] using hr
        rw [Place.run_append_of ((hparent d).1 (Nat.zero_le d)), ← hplain]
        exact ih
  | case5 c s hlast hescape hc ih =>
    obtain ⟨r, hr, h⟩ := Option.bind_eq_some_iff.1 h
    rw [Place.run_cons, hr]
    refine ih (Place.isSound_next hp hr) (ahead_next hahead ?_ hr) h
    rintro rfl
    cases s with
    | nil => exact hlast rfl rfl
    | cons d s => exact hescape d s rfl rfl

theorem Passes.replaceNesting {parent : List Char} (h : Passes .selector s)
    (hparent : Inert .selector 0 parent) :
    Passes .selector (Chars.replaceNesting parent s) := by
  obtain ⟨slash, h⟩ := h
  exact ⟨slash, run_replaceNesting hparent trivial rfl h⟩

end Chars

end UtilityCss
