import Mathlib.Data.List.TakeWhile
import UtilityCss.Proofs.Text.Blank

/-!
# Words of a text

The words of a text are not empty and hold no white space. White space at the ends of the text does
not matter, and a text behind a space adds its words.
-/

namespace UtilityCss

namespace Chars

variable {p : Char → Bool} {s t w : List Char}

theorem splitBy_ne_nil (p : Char → Bool) (s : List Char) : splitBy p s ≠ [] := by
  cases s with
  | nil => exact List.cons_ne_nil _ _
  | cons c s =>
    rw [splitBy]
    split
    · exact List.cons_ne_nil _ _
    · split <;> exact List.cons_ne_nil _ _

theorem splitBy_cons_of_pos {c : Char} (h : p c = true) : splitBy p (c :: s) = [] :: splitBy p s := by
  rw [splitBy, if_pos h]

theorem splitBy_cons_of_neg {c : Char} (h : p c = false) :
    ∃ w ws, splitBy p s = w :: ws ∧ splitBy p (c :: s) = (c :: w) :: ws := by
  obtain ⟨w, ws, hs⟩ := List.exists_cons_of_ne_nil (splitBy_ne_nil p s)
  refine ⟨w, ws, hs, ?_⟩
  rw [splitBy, if_neg (Bool.eq_false_iff.1 h), hs]

theorem eq_false_of_mem_splitBy (hw : w ∈ splitBy p s) : ∀ c ∈ w, p c = false := by
  induction s generalizing w with
  | nil =>
    rw [splitBy, List.mem_singleton] at hw
    subst hw
    nofun
  | cons c s ih =>
    cases hc : p c with
    | true =>
      rw [splitBy_cons_of_pos hc, List.mem_cons] at hw
      rcases hw with rfl | hw
      · nofun
      · exact ih hw
    | false =>
      obtain ⟨v, vs, hs, heq⟩ := splitBy_cons_of_neg (s := s) hc
      rw [heq, List.mem_cons] at hw
      rcases hw with rfl | hw
      · exact List.forall_mem_cons.2 ⟨hc, ih (hs ▸ List.mem_cons_self)⟩
      · exact ih (hs ▸ List.mem_cons_of_mem _ hw)

theorem prefix_of_splitBy {ws : List (List Char)} (h : splitBy p s = w :: ws) :
    w <+: s ∧ ∀ v ∈ ws, v <:+: s := by
  induction s generalizing w ws with
  | nil =>
    cases h
    exact ⟨List.nil_prefix, List.forall_mem_nil _⟩
  | cons c s ih =>
    obtain ⟨v, vs, hs⟩ := List.exists_cons_of_ne_nil (splitBy_ne_nil p s)
    obtain ⟨hv, hvs⟩ := ih hs
    rw [splitBy, hs] at h
    split at h
    · cases h
      exact ⟨List.nil_prefix, List.forall_mem_cons.2 ⟨List.infix_cons hv.isInfix, fun u hu =>
        List.infix_cons (hvs u hu)⟩⟩
    · cases h
      exact ⟨List.cons_prefix_cons.2 ⟨rfl, hv⟩, fun u hu => List.infix_cons (hvs u hu)⟩

private theorem infix_of_mem_splitBy (hw : w ∈ splitBy p s) : w <:+: s := by
  obtain ⟨v, vs, hs⟩ := List.exists_cons_of_ne_nil (splitBy_ne_nil p s)
  obtain ⟨hv, hvs⟩ := prefix_of_splitBy hs
  rw [hs] at hw
  rcases List.mem_cons.1 hw with rfl | hw
  · exact hv.isInfix
  · exact hvs w hw

theorem splitBy_append_cons {c : Char} (h : p c = true) :
    splitBy p (s ++ c :: t) = splitBy p s ++ splitBy p t := by
  induction s with
  | nil => exact splitBy_cons_of_pos h
  | cons d s ih =>
    cases hd : p d with
    | true => rw [List.cons_append, splitBy_cons_of_pos hd, splitBy_cons_of_pos hd, ih, List.cons_append]
    | false =>
      obtain ⟨w, ws, hs, heq⟩ := splitBy_cons_of_neg (s := s) hd
      obtain ⟨v, vs, hs', heq'⟩ := splitBy_cons_of_neg (s := s ++ c :: t) hd
      rw [ih, hs, List.cons_append] at hs'
      obtain ⟨rfl, rfl⟩ := List.cons.inj hs'
      rw [List.cons_append, heq', heq, List.cons_append]

@[simp]
theorem words_nil : words [] = [] := rfl

theorem words_append_cons {c : Char} (h : isBlank c = true) :
    words (s ++ c :: t) = words s ++ words t := by
  rw [words, splitBy_append_cons h, List.filter_append, words, words]

private theorem words_cons {c : Char} (h : isBlank c = true) : words (c :: s) = words s :=
  words_append_cons (s := []) h

theorem words_trimStart (s : List Char) : words (trimStart s) = words s := by
  induction s with
  | nil => rfl
  | cons c s ih =>
    cases hc : isBlank c with
    | true => rw [trimStart, List.dropWhile_cons_of_pos hc, ← trimStart, ih, words_cons hc]
    | false => rw [trimStart, List.dropWhile_cons_of_neg (Bool.eq_false_iff.1 hc)]

private theorem words_append_blanks (h : ∀ c ∈ t, isBlank c = true) : words (s ++ t) = words s := by
  induction t with
  | nil => rw [List.append_nil]
  | cons c t ih =>
    obtain ⟨hc, ht⟩ := List.forall_mem_cons.1 h
    have hblanks : words t = [] := by
      rw [← words_trimStart, trimStart, List.dropWhile_eq_nil_iff.2 ht, words_nil]
    rw [words_append_cons hc, hblanks, List.append_nil]

private theorem words_trimEnd (s : List Char) : words (trimEnd s) = words s := by
  have hsplit : trimEnd s ++ (s.reverse.takeWhile isBlank).reverse = s := by
    rw [trimEnd, ← List.reverse_append, List.takeWhile_append_dropWhile, List.reverse_reverse]
  conv => rhs; rw [← hsplit]
  refine (words_append_blanks fun c hc => ?_).symm
  exact List.mem_takeWhile_imp (List.mem_reverse.1 hc)

theorem words_trim (s : List Char) : words (trim s) = words s := by
  rw [trim, words_trimEnd, words_trimStart]

end Chars

namespace Text

variable {s w : String}

theorem words_trim (s : String) : words (trim s) = words s := by
  rw [words, trim, String.toList_ofList, Chars.words_trim]
  rfl

/-- The words of a text, a space and another text are those of both. -/
theorem words_append_space (s t : String) : words (s ++ " " ++ t) = words s ++ words t := by
  have htoList : (s ++ " " ++ t).toList = s.toList ++ ' ' :: t.toList := by
    rw [String.toList_append, String.toList_append, List.append_assoc]
    rfl
  rw [words, htoList, Chars.words_append_cons (by decide), List.map_append]
  rfl

theorem infix_of_mem_words (h : w ∈ words s) : w.toList <:+: s.toList := by
  obtain ⟨v, hv, rfl⟩ := List.mem_map.1 h
  rw [String.toList_ofList]
  exact Chars.infix_of_mem_splitBy (List.mem_filter.1 hv).1

/-- A word is not empty, and trimming does not change it. -/
theorem ne_empty_and_trim_of_mem_words (h : w ∈ words s) : w ≠ "" ∧ trim w = w := by
  obtain ⟨v, hv, rfl⟩ := List.mem_map.1 h
  obtain ⟨hv, hne⟩ := List.mem_filter.1 hv
  constructor
  · rintro heq
    rw [← String.ofList_nil, String.ofList_inj] at heq
    rw [heq] at hne
    exact Bool.false_ne_true hne
  · rw [trim, String.toList_ofList, Chars.trim_eq_self_of_forall (Chars.eq_false_of_mem_splitBy hv)]

end Text

end UtilityCss
