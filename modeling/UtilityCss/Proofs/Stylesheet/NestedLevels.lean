import Mathlib.Algebra.Ring.Parity
import Mathlib.Data.List.DropRight
import UtilityCss.Proofs.Stylesheet.NestingSelector

/-!
# Levels of nested selectors

A selector in a rule in a rule may be resolved from the inside or from the outside. Both give the
same as long as no backslash at the end of the middle selector takes the next character with it:
read from the inside, what follows the parent is read again behind it.
-/

namespace UtilityCss

namespace Chars

/-- Whether the backslashes at the end of a text leave one over when each of them takes the next one
with it, so that it takes what follows the text. -/
def EndsInEscape (s : List Char) : Prop := Odd (s.rtakeWhile (· == '\\')).length

instance : DecidablePred EndsInEscape :=
  fun s => inferInstanceAs (Decidable (Odd (s.rtakeWhile (· == '\\')).length))

section Escape

variable {c d : Char} {s t : List Char}

theorem endsInEscape_concat :
    EndsInEscape (s ++ [c]) ↔ c = '\\' ∧ ¬ EndsInEscape s := by
  rw [EndsInEscape, EndsInEscape, List.rtakeWhile_concat]
  by_cases hc : c = '\\'
  · simp [hc, Nat.odd_add_one]
  · simp [hc]

theorem not_endsInEscape_nil : ¬ EndsInEscape [] := by decide

theorem endsInEscape_cons (hc : c ≠ '\\') : EndsInEscape (c :: s) ↔ EndsInEscape s := by
  induction s using List.reverseRecOn with
  | nil =>
    rw [← List.nil_append [c], endsInEscape_concat]
    exact iff_of_false (fun h => hc h.1) not_endsInEscape_nil
  | append_singleton s d ih => rw [← List.cons_append, endsInEscape_concat, endsInEscape_concat, ih]

theorem endsInEscape_escape : EndsInEscape ('\\' :: c :: s) ↔ EndsInEscape s := by
  induction s using List.reverseRecOn with
  | nil =>
    have hpair : '\\' :: [c] = ['\\'] ++ [c] := rfl
    rw [hpair, endsInEscape_concat]
    exact iff_of_false (fun h => h.2 (by decide)) not_endsInEscape_nil
  | append_singleton s d ih =>
    rw [← List.cons_append, ← List.cons_append, endsInEscape_concat, endsInEscape_concat, ih]

end Escape

section Levels

variable {s t parent inner outer : List Char}

theorem hasNesting_append_of_not_endsInEscape (h : ¬ EndsInEscape s) :
    hasNesting (s ++ t) = (hasNesting s || hasNesting t) := by
  fun_induction hasNesting s with
  | case1 => rfl
  | case2 => exact absurd (by decide) h
  | case3 c s ih => exact ih (mt endsInEscape_escape.2 h)
  | case4 c s hlast hescape ih =>
    have hc := ne_backslash hlast hescape
    rw [endsInEscape_cons hc] at h
    rw [List.cons_append, hasNesting_cons hc, ih h, Bool.or_assoc]

theorem replaceNesting_append_of_not_endsInEscape (h : ¬ EndsInEscape s) :
    replaceNesting parent (s ++ t) = replaceNesting parent s ++ replaceNesting parent t := by
  fun_induction hasNesting s with
  | case1 => rfl
  | case2 => exact absurd (by decide) h
  | case3 c s ih => exact congrArg (['\\', c] ++ ·) (ih (mt endsInEscape_escape.2 h))
  | case4 c s hlast hescape ih =>
    have hc := ne_backslash hlast hescape
    rw [endsInEscape_cons hc] at h
    rw [List.cons_append, replaceNesting_cons hc, replaceNesting_cons hc, ih h, List.append_assoc]

/-- `&` stands in a resolved selector if it stood in both. -/
theorem hasNesting_replaceNesting_eq_and (h : ¬ EndsInEscape parent) (s : List Char) :
    hasNesting (replaceNesting parent s) = (hasNesting s && hasNesting parent) := by
  fun_induction hasNesting s with
  | case1 => rfl
  | case2 => rfl
  | case3 c s ih => exact ih
  | case4 c s hlast hescape ih =>
    rw [replaceNesting_cons (ne_backslash hlast hescape)]
    cases hnesting : c == '&' with
    | true =>
      rw [if_pos rfl, hasNesting_append_of_not_endsInEscape h, ih]
      cases hasNesting parent <;> simp
    | false =>
      rw [if_neg Bool.false_ne_true, List.singleton_append,
        hasNesting_cons (ne_backslash hlast hescape), ih, hnesting, Bool.false_or, Bool.false_or]

/-- What stands in front of the place of `&` makes no difference to what is found behind it. -/
theorem replaceNesting_replaceNesting (h : ¬ EndsInEscape parent) (s : List Char) :
    replaceNesting outer (replaceNesting parent s) =
      replaceNesting (replaceNesting outer parent) s := by
  fun_induction hasNesting s with
  | case1 => rfl
  | case2 => rfl
  | case3 c s ih => exact congrArg (['\\', c] ++ ·) ih
  | case4 c s hlast hescape ih =>
    have hc := ne_backslash hlast hescape
    rw [replaceNesting_cons hc, replaceNesting_cons hc]
    cases hnesting : c == '&' with
    | true => rw [if_pos rfl, if_pos rfl, replaceNesting_append_of_not_endsInEscape h, ih]
    | false =>
      rw [if_neg Bool.false_ne_true, if_neg Bool.false_ne_true, List.singleton_append,
        List.singleton_append, replaceNesting_cons hc, ih, hnesting]
      rfl

/-- A backslash that is left over at the end takes the backslash behind it, so that an escaped `&`
behind that is found. -/
theorem replaceNesting_replaceNesting_ne (h : EndsInEscape parent) :
    replaceNesting [] (replaceNesting parent ['&', '\\', '&']) ≠
      replaceNesting (replaceNesting [] parent) ['&', '\\', '&'] := by
  cases parent using List.reverseRecOn with
  | nil => exact absurd h not_endsInEscape_nil
  | append_singleton s c =>
    obtain ⟨rfl, hs⟩ := endsInEscape_concat.1 h
    have hinner (p : List Char) : replaceNesting p ['&', '\\', '&'] = p ++ ['\\', '&'] := rfl
    rw [hinner, hinner, List.append_assoc, replaceNesting_append_of_not_endsInEscape hs,
      replaceNesting_append_of_not_endsInEscape hs]
    intro heq
    have hlength := congrArg List.length heq
    simp [replaceNesting] at hlength

end Levels

end Chars

/-- Whether a backslash at the end of a text takes what follows it. -/
def EndsInEscape (s : String) : Prop := Chars.EndsInEscape s.toList

instance : DecidablePred EndsInEscape :=
  fun s => inferInstanceAs (Decidable (Chars.EndsInEscape s.toList))

section Levels

variable {p c : String}

theorem combineSelectors_some (parents : List String) (child : String) :
    combineSelectors (some parents) child =
      parents.flatMap fun parent => (combineSelectors none child).map (nestSelector parent) := rfl

/-- If the inner selector has `&`, the middle one has to have it too: otherwise the outer one would
be put in front of the result as a whole, and not of each place that the middle one fills. -/
theorem nestSelector_nestSelector (hp : ¬ EndsInEscape p) (h : hasNesting c → hasNesting p)
    (q : String) : nestSelector q (nestSelector p c) = nestSelector (nestSelector q p) c := by
  rw [hasNesting, hasNesting] at h
  cases hc : Chars.hasNesting c.toList with
  | true =>
    have hnesting := h hc
    simp only [nestSelector, hasNesting, hc, hnesting, if_true, replaceNesting, String.toList_ofList,
      Chars.hasNesting_replaceNesting_eq_and hp, Bool.and_self]
    rw [Chars.replaceNesting_replaceNesting hp]
  | false =>
    have happend (t : List Char) : Chars.hasNesting (p.toList ++ ' ' :: t) =
        (Chars.hasNesting p.toList || Chars.hasNesting t) := by
      rw [Chars.hasNesting_append_of_not_endsInEscape hp, Chars.hasNesting_cons (by decide)]
      rfl
    have hplain : Chars.replaceNesting q.toList c.toList = c.toList :=
      Chars.replaceNesting_of_not_hasNesting hc
    rw [← String.toList_inj]
    cases hnesting : Chars.hasNesting p.toList with
    | true =>
      simp [nestSelector, hasNesting, replaceNesting, hc, hnesting, happend,
        Chars.replaceNesting_append_of_not_endsInEscape hp, Chars.replaceNesting_cons, hplain]
    | false => simp [nestSelector, hasNesting, hc, hnesting, happend]

end Levels

/-- Three levels of selectors are the same from the inside and from the outside: for all inner and
outer selectors exactly if no backslash is left over at the end of the middle one. So the lists of
alternatives of nested rules are, if `&` stands in every alternative of the middle one where one of
the inner ones has it. -/
theorem replaceNesting_assoc (p : String) :
    ((∀ c q, replaceNesting (replaceNesting c p) q = replaceNesting c (replaceNesting p q)) ↔
      ¬ EndsInEscape p) ∧
    (∀ qs c, (∀ part ∈ combineSelectors none p, ¬ EndsInEscape part ∧
        ∀ inner ∈ combineSelectors none c, hasNesting inner → hasNesting part) →
      combineSelectors (some (combineSelectors (some qs) p)) c = qs.flatMap fun q =>
        (combineSelectors (some (combineSelectors none p)) c).map (nestSelector q)) := by
  refine ⟨⟨fun h hp => ?_, fun hp c q => ?_⟩, fun qs c h => ?_⟩
  · have heq := h "&\\&" ""
    simp only [replaceNesting, String.toList_ofList, String.ofList_inj] at heq
    exact Chars.replaceNesting_replaceNesting_ne hp heq
  · simp only [replaceNesting, String.toList_ofList, String.ofList_inj]
    exact Chars.replaceNesting_replaceNesting hp c.toList
  · rw [combineSelectors_some, combineSelectors_some, combineSelectors_some, List.flatMap_assoc]
    refine List.flatMap_congr fun q _ => ?_
    rw [List.flatMap_map, List.map_flatMap]
    refine List.flatMap_congr fun part hpart => ?_
    obtain ⟨hescape, hnesting⟩ := h part hpart
    rw [List.map_map]
    refine List.map_congr_left fun inner hinner => ?_
    exact (nestSelector_nestSelector hescape (hnesting inner hinner) q).symm

/-- An escaped backslash at the end of the middle selector. -/
theorem replaceNesting_assoc_escaped : ¬ EndsInEscape "&.b\\\\" ∧
    replaceNesting (replaceNesting "& > &" "&.b\\\\") ".a" =
      replaceNesting "& > &" (replaceNesting "&.b\\\\" ".a") := by
  have hescape : ¬ EndsInEscape "&.b\\\\" := by decide
  exact ⟨hescape, (replaceNesting_assoc _).1.2 hescape _ _⟩

end UtilityCss
