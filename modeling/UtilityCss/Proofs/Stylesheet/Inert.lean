import UtilityCss.Proofs.Stylesheet.Passage
import UtilityCss.Proofs.Text.Escape

/-!
# Texts that change no place

A text is inert if a scan is behind it where it was in front of it, inside of quotes as well as
outside. Names are inert, and so are escaped texts: whatever is escaped, it ends no quote, bracket or
prelude.
-/

namespace UtilityCss

namespace Chars

variable {k : TextKind} {m : Nat} {s t : List Char} {c : Char}

/-- A scan is behind the text where it was in front of it, inside of quotes or with at least `m`
brackets open. -/
def Inert (k : TextKind) (m : Nat) (s : List Char) : Prop :=
  ∀ d, (m ≤ d → (Place.plain d false).run k s = some (.plain d false)) ∧
    ∀ q, isQuote q → (Place.quoted q d).run k s = some (.quoted q d)

theorem inert_nil : Inert k m [] := fun _ => ⟨fun _ => rfl, fun _ _ => rfl⟩

theorem Inert.append (hs : Inert k m s) (ht : Inert k m t) : Inert k m (s ++ t) := by
  intro d
  refine ⟨?_, ?_⟩
  · intro hd
    rw [Place.run_append_of ((hs d).1 hd)]
    exact (ht d).1 hd
  · intro q hq
    rw [Place.run_append_of ((hs d).2 q hq)]
    exact (ht d).2 q hq

theorem inert_flatMap {α : Type} {f : α → List Char} {as : List α} (h : ∀ a ∈ as, Inert k m (f a)) :
    Inert k m (as.flatMap f) := by
  induction as with
  | nil => exact inert_nil
  | cons a as ih =>
    rw [List.flatMap_cons]
    exact (h a List.mem_cons_self).append (ih fun b hb => h b (List.mem_cons_of_mem _ hb))

theorem Inert.passes (h : Inert k 0 s) : Passes k s := ⟨false, (h 0).1 (Nat.le_refl 0)⟩

/-- Brackets around a text that is inert inside of them. -/
theorem Inert.bracketed (h : Inert k (m + 1) s) : Inert k m ('(' :: (s ++ [')'])) := by
  intro d
  refine ⟨?_, ?_⟩
  · intro hd
    have hclose : (Place.plain (d + 1) false).run k [')'] = some (.plain d false) := by
      simp [Place.run_cons, Place.next, isQuote]
    change (Place.plain (d + 1) false).run k (s ++ [')']) = _
    rw [Place.run_append_of ((h (d + 1)).1 (Nat.succ_le_succ hd)), hclose]
  · intro q hq
    have hbracket (c : Char) (hc : c = '(' ∨ c = ')') :
        (Place.quoted q d).next k c = some (.quoted q d) := by
      have hne : c ≠ '\\' ∧ c ≠ q := by
        simp only [isQuote, Bool.or_eq_true, beq_iff_eq] at hq
        rcases hc with rfl | rfl <;> rcases hq with rfl | rfl <;> decide
      rw [Place.next, if_neg (by simpa using hne.1), if_neg (by simpa using hne.2)]
    rw [Place.run_cons, hbracket '(' (.inl rfl), Option.bind_some,
      Place.run_append_of ((h d).2 q hq), Place.run_cons, hbracket ')' (.inr rfl)]
    rfl

theorem inert_tame (hs : ∀ c ∈ s, isTame c) : Inert k m s := by
  intro d
  refine ⟨fun _ => run_tame hs d, ?_⟩
  intro q hq
  induction s with
  | nil => rfl
  | cons c s ih =>
    have hc : c ≠ '\\' ∧ c ≠ q := by
      have htame := hs c List.mem_cons_self
      refine ⟨?_, ?_⟩
      · rintro rfl
        exact absurd htame (by decide)
      · rintro rfl
        simp only [isQuote, Bool.or_eq_true, beq_iff_eq] at hq
        rcases hq with rfl | rfl <;> exact absurd htame (by decide)
    rw [Place.run_cons, Place.next, if_neg (by simpa using hc.1), if_neg (by simpa using hc.2)]
    exact ih fun c hc => hs c (List.mem_cons_of_mem _ hc)

/-- An escaped character is inert. In a selector a blank has to be inside brackets for that. -/
theorem inert_escaped (h : k.isSelector → isBlank c → 0 < m) : Inert k m ['\\', c] := by
  intro d
  refine ⟨?_, ?_⟩
  · intro hd
    change (Place.escaped none d).run k [c] = _
    rw [Place.run_cons, Place.next, if_neg]
    · rfl
    · grind
  · intro q hq
    rw [Place.run_cons, Place.next, if_pos (beq_self_eq_true _)]
    rfl

/-- A character by its code is inert, since a digit and not a blank is behind the backslash. -/
theorem inert_code (n : Nat) : Inert k m ('\\' :: hexDigits n ++ [' ']) := by
  have hhex : ∀ c ∈ hexDigits n, isHexDigit c := fun _ => isHexDigit_of_mem_hexDigits
  cases hdigits : hexDigits n with
  | nil => exact absurd hdigits (hexDigits_ne_nil n)
  | cons c s =>
    rw [hdigits] at hhex
    have hblank := isBlank_of_isHexDigit (hhex c List.mem_cons_self)
    have htail : ∀ d ∈ s ++ [' '], isTame d := by
      intro d hd
      rcases List.mem_append.1 hd with hd | hd
      · exact isTame_of (by decide) (hhex d (List.mem_cons_of_mem _ hd))
      · obtain rfl := List.mem_singleton.1 hd
        decide
    exact (inert_escaped (fun _ hc => absurd hc (by simp [hblank]))).append (inert_tame htail)

theorem inert_escapeChar (hk : k.isSelector → 0 < m) (leading : Bool) (c : Char) :
    Inert k m (escapeChar leading c) := by
  rw [escapeChar]
  split
  · exact inert_tame (by decide)
  · split
    · exact inert_code _
    · split
      · next h =>
        refine inert_tame fun d hd => ?_
        obtain rfl := List.mem_singleton.1 hd
        exact isTame_of (by decide) h
      · exact inert_escaped fun h _ => hk h

/-- An escaped text is inert, whatever it escapes. -/
theorem inert_escape (hk : k.isSelector → 0 < m) (s : List Char) : Inert k m (escape s) := by
  unfold escape
  split
  · exact inert_nil
  · exact inert_escaped fun h _ => hk h
  · have hdash : Inert k m ['-'] := inert_tame (by decide)
    exact (hdash.append (inert_escapeChar hk _ _)).append <|
      inert_flatMap fun c _ => inert_escapeChar hk _ c
  · exact (inert_escapeChar hk _ _).append <| inert_flatMap fun c _ => inert_escapeChar hk _ c

end Chars

end UtilityCss
