import UtilityCss.Proofs.Text.Nesting
import UtilityCss.Stylesheet.Selector

/-!
# The nesting selector

Where no escape is open behind a text, `&` is looked for and replaced in what follows as it would be
without the text. A text without `&` stays as it is.
-/

namespace UtilityCss

namespace Chars

variable {c : Char} {n m : Nesting} {s t parent : List Char}

theorem replaceNesting_cons (hc : c ≠ '\\') :
    replaceNesting parent (c :: s) =
      (if c == '&' then parent else [c]) ++ replaceNesting parent s := by
  rw [replaceNesting]
  · split <;> rfl
  · exact fun h _ => hc h
  · exact fun _ _ h _ => hc h

theorem replaceNesting_append (h : nestingAfter? n s = some m) :
    replaceNesting parent (s ++ t) = replaceNesting parent s ++ replaceNesting parent t := by
  fun_induction nestingAfter? n s with
  | case1 => rfl
  | case2 => cases h
  | case3 n c s ih => exact congrArg (['\\', c] ++ ·) (ih h)
  | case4 n c s hlast hescape ih =>
    have hc := ne_backslash hlast hescape
    obtain ⟨n', -, h⟩ := Option.bind_eq_some_iff.1 h
    rw [List.cons_append, replaceNesting_cons hc, replaceNesting_cons hc, ih n' h, List.append_assoc]

theorem hasNesting_cons (hc : c ≠ '\\') : hasNesting (c :: s) = (c == '&' || hasNesting s) := by
  rw [hasNesting]
  · exact fun h _ => hc h
  · exact fun _ _ h _ => hc h

theorem hasNesting_append (h : nestingAfter? n s = some m) :
    hasNesting (s ++ t) = (hasNesting s || hasNesting t) := by
  fun_induction nestingAfter? n s with
  | case1 => rfl
  | case2 => cases h
  | case3 n c s ih => exact ih h
  | case4 n c s hlast hescape ih =>
    have hc := ne_backslash hlast hescape
    obtain ⟨n', -, hrest⟩ := Option.bind_eq_some_iff.1 h
    rw [List.cons_append, hasNesting_cons hc, hasNesting_cons hc, ih n' hrest, Bool.or_assoc]

theorem replaceNesting_of_not_hasNesting (h : hasNesting s = false) :
    replaceNesting parent s = s := by
  fun_induction hasNesting s with
  | case1 => rfl
  | case2 => rfl
  | case3 c s ih => exact congrArg (['\\', c] ++ ·) (ih h)
  | case4 c s hlast hescape ih =>
    rw [Bool.or_eq_false_iff] at h
    rw [replaceNesting_cons (ne_backslash hlast hescape), h.1, ih h.2]
    rfl

theorem hasNesting_of_notMem (h : '&' ∉ s) : hasNesting s = false := by
  fun_induction hasNesting s with
  | case1 => rfl
  | case2 => rfl
  | case3 c s ih => exact ih fun hmem => h (List.mem_cons_of_mem _ (List.mem_cons_of_mem _ hmem))
  | case4 c s hlast hescape ih =>
    rw [List.mem_cons, not_or] at h
    rw [ih h.2, Bool.or_false]
    exact beq_false_of_ne (Ne.symm h.1)

end Chars

end UtilityCss
