import UtilityCss.Proofs.Text.Separator

/-!
# The parts of a text

What `segment` makes of a text is the text again when it is joined by the separator. No part is
split any further, and brackets and quotes are closed in the text if they are in each of its parts:
a separator stands where nothing is open, so that every part is read from the same state.
-/

namespace UtilityCss

namespace Chars

section Split

variable {sep c : Char} {n : Nesting} {s : List Char}

private theorem intercalate_cons_eq (sep : Char) (part : List Char) (parts : List (List Char)) :
    [sep].intercalate (part :: parts) = part ++ parts.flatMap (sep :: ·) := by
  induction parts generalizing part with
  | nil => simp
  | cons next parts ih => simp [List.intercalate_cons_cons, ih]

theorem segment_eq_cons (sep : Char) (s : List Char) :
    segment sep s = (segmentFrom sep {} s).1 :: (segmentFrom sep {} s).2 := rfl

/-- A text that is not cut is its only part, also if something in it stays open. -/
theorem segment_eq_singleton_iff : segment sep s = [s] ↔ IsUncut sep {} s := by
  rw [segment_eq_cons, IsUncut]
  constructor
  · intro h
    exact (List.cons.inj h).2
  · intro h
    have hjoin := join_segmentFrom sep {} s
    rw [h, List.flatMap_nil, List.append_nil] at hjoin
    rw [h, hjoin]

private theorem intercalate_segment (sep : Char) (s : List Char) :
    [sep].intercalate (segment sep s) = s := by
  rw [segment_eq_cons, intercalate_cons_eq, join_segmentFrom]

theorem next?_of_cuts
    (h : (c == sep && n.isTop && !isQuote c && (closer? c).isNone && !isCloser c) = true) :
    n = {} ∧ n.next? c = some {} := by
  simp only [Bool.and_eq_true, Bool.not_eq_true', Option.isNone_iff_eq_none] at h
  obtain ⟨⟨⟨⟨-, htop⟩, hquote⟩, hopens⟩, hcloser⟩ := h
  obtain rfl := eq_of_isTop htop
  exact ⟨rfl, by simp [Nesting.next?, Nesting.next, hquote, hopens, hcloser]⟩

/-- The check of a text is the check of its parts one after the other: it goes on through the first
part from the state before it, and begins anew behind every separator. -/
theorem balancedFrom_segmentFrom (sep : Char) (n : Nesting) (s : List Char) :
    balancedFrom n s =
      (balancedFrom n (segmentFrom sep n s).1 && (segmentFrom sep n s).2.all isBalanced) := by
  induction n, s using segmentFrom.induct sep with
  | case1 n => simp [segmentFrom]
  | case2 n => simp [segmentFrom]
  | case3 n c s part parts hs ih => exact ih
  | case4 n c s hlast hescape hcut part parts hs ih =>
    have hc := ne_backslash hlast hescape
    obtain ⟨rfl, hnext⟩ := next?_of_cuts hcut
    rw [balancedFrom_cons hc, hnext, segmentFrom_cons hc, if_pos hcut]
    exact ih
  | case5 n c s hlast hescape hcut part parts hs ih =>
    have hc := ne_backslash hlast hescape
    rw [segmentFrom_cons hc, if_neg hcut, balancedFrom_cons hc, balancedFrom_cons hc]
    cases hnext : n.next? c with
    | none => rfl
    | some m =>
      obtain rfl := eq_next_of_next? hnext
      exact ih

private theorem isBalanced_segment (sep : Char) (s : List Char) :
    isBalanced s = (segment sep s).all isBalanced :=
  balancedFrom_segmentFrom sep {} s

/-- At a character that escapes, opens or closes something no text is cut. -/
theorem isUncut_of_not_isSeparator (hsep : ¬ IsSeparator sep) (n : Nesting) (s : List Char) :
    IsUncut sep n s := by
  induction n, s using segmentFrom.induct sep with
  | case1 => rfl
  | case2 => rfl
  | case3 n c s part parts hs ih => exact ih
  | case4 n c s hlast hescape hcut part parts hs ih =>
    refine absurd (fun hmem => ?_) hsep
    have hc := ne_backslash hlast hescape
    simp only [Bool.and_eq_true, Bool.not_eq_true', beq_iff_eq] at hcut
    obtain ⟨⟨⟨⟨rfl, -⟩, hquote⟩, hopens⟩, hcloser⟩ := hcut
    simp only [List.mem_cons, List.not_mem_nil, or_false] at hmem
    rcases hmem with rfl | rfl | rfl | rfl | rfl | rfl | rfl | rfl | rfl <;>
      simp_all [isQuote, closer?, isCloser]
  | case5 n c s hlast hescape hcut part parts hs ih =>
    rw [isUncut_cons (ne_backslash hlast hescape)]
    exact ⟨Bool.eq_false_iff.2 hcut, ih⟩

end Split

end Chars

/-- A text is its parts with the separators between them, one part more than there are separators
outside of brackets and quotes; no part is split any further; and the text is balanced exactly if
every part is. -/
theorem segment_lossless_maximal_balanced (s : String) (sep : Char) :
    (String.singleton sep).intercalate (segment s sep) = s ∧
    (segment s sep).length = (if Chars.IsSeparator sep then separatorCount s sep else 0) + 1 ∧
    (∀ part ∈ segment s sep, segment part sep = [part]) ∧
    (isBalanced s ↔ ∀ part ∈ segment s sep, isBalanced part) := by
  refine ⟨?_, ?_, ?_, ?_⟩
  · rw [← String.toList_inj, String.toList_intercalate, segment, List.map_map]
    simp [Function.comp_def, Chars.intercalate_segment]
  · split
    · next hsep => exact length_segment hsep s
    · next hsep =>
      have huncut := Chars.isUncut_of_not_isSeparator hsep {} s.toList
      rw [segment, List.length_map, Chars.segment_eq_singleton_iff.2 huncut]
      rfl
  · intro part hpart
    obtain ⟨chars, hchars, rfl⟩ := List.mem_map.1 hpart
    have huncut := Chars.isUncut_of_mem_segment hchars
    rw [segment, String.toList_ofList, Chars.segment_eq_singleton_iff.2 huncut]
    rfl
  · rw [isBalanced, Chars.isBalanced_segment sep, segment, List.forall_mem_map, List.all_eq_true]
    simp [isBalanced]

/-- A separator in brackets is left alone, and so is the part around it. -/
theorem segment_lossless_maximal_balanced_bracketed :
    "[b:c]" ∈ segment "a:[b:c]:\"d:\\\"\"" ':' ∧ segment "[b:c]" ':' = ["[b:c]"] := by
  have hmem : "[b:c]" ∈ segment "a:[b:c]:\"d:\\\"\"" ':' := by decide +kernel
  exact ⟨hmem, (segment_lossless_maximal_balanced _ _).2.2.1 _ hmem⟩

end UtilityCss
