import Mathlib.Data.List.DropRight
import UtilityCss.Text.Blank
import UtilityCss.Text.Numeric

/-!
# White space and names

White space has only 25 codes, and none of them is that of a character that a name is made of. A text
without white space at its ends is not changed by trimming.
-/

namespace UtilityCss

def blankCodes : List Nat :=
  [9, 10, 11, 12, 13, 0x20, 0x85, 0xA0, 0x1680, 0x2000, 0x2001, 0x2002, 0x2003, 0x2004, 0x2005,
    0x2006, 0x2007, 0x2008, 0x2009, 0x200A, 0x2028, 0x2029, 0x202F, 0x205F, 0x3000]

section Name

variable {c : Char}

private theorem toNat_mem_blankCodes (h : isBlank c) : c.toNat ∈ blankCodes := by
  simp only [isBlank, Bool.or_eq_true, Bool.and_eq_true, decide_eq_true_eq, beq_iff_eq] at h
  simp only [blankCodes, List.mem_cons, List.not_mem_nil, or_false]
  omega

/-- A character of a kind is not white space if none of the codes is of that kind. -/
theorem isBlank_eq_false_of {p : Char → Bool} (hp : ∀ n ∈ blankCodes, p (Char.ofNat n) = false)
    (h : p c) : isBlank c = false := by
  rw [Bool.eq_false_iff]
  intro hblank
  have hc := hp c.toNat (toNat_mem_blankCodes hblank)
  rw [Char.ofNat_toNat, h] at hc
  cases hc

/-- What a name is made of is not white space. -/
theorem isBlank_eq_false_of_isNameChar (h : isNameChar c) : isBlank c = false :=
  isBlank_eq_false_of (by decide +kernel) h

theorem isNameChar_of_isAlphanumeric (h : isAlphanumeric c) : isNameChar c := by
  rw [isNameChar, h]
  rfl

end Name

namespace Chars

variable {s t : List Char} {c : Char}

theorem trimStart_eq_self (h : ∀ c ∈ s.head?, isBlank c = false) : trimStart s = s := by
  cases s with
  | nil => rfl
  | cons c s => exact List.dropWhile_cons_of_neg (Bool.eq_false_iff.1 (h c rfl))

theorem trimEnd_eq_self (h : ∀ c ∈ s.getLast?, isBlank c = false) : trimEnd s = s := by
  have hreverse := trimStart_eq_self (s := s.reverse) (by rwa [List.head?_reverse])
  rw [trimStart] at hreverse
  rw [trimEnd, hreverse, List.reverse_reverse]

/-- Trimming looks at the ends of a text only. -/
theorem trim_eq_self (hhead : ∀ c ∈ s.head?, isBlank c = false)
    (hlast : ∀ c ∈ s.getLast?, isBlank c = false) : trim s = s := by
  rw [trim, trimStart_eq_self hhead, trimEnd_eq_self hlast]

theorem trim_eq_self_of_forall (h : ∀ c ∈ s, isBlank c = false) : trim s = s :=
  trim_eq_self (fun c hc => h c (List.mem_of_mem_head? hc))
    fun c hc => h c (List.mem_of_mem_getLast? hc)

theorem trimEnd_append_of_forall (h : ∀ c ∈ t, isBlank c) : trimEnd (s ++ t) = trimEnd s := by
  rw [trimEnd, List.reverse_append, List.dropWhile_append_of_pos]
  · rfl
  · exact fun c hc => h c (List.mem_reverse.1 hc)

theorem trimEnd_eq_nil_iff : trimEnd s = [] ↔ ∀ c ∈ s, isBlank c :=
  List.rdropWhile_eq_nil_iff

/-- Trimming at the end goes no further than to the last character that is not white space. -/
theorem trimEnd_append (h : ¬ ∀ c ∈ t, isBlank c) : trimEnd (s ++ t) = s ++ trimEnd t := by
  have hne : (t.reverse.dropWhile isBlank).isEmpty = false := by
    rw [← Bool.not_eq_true, List.isEmpty_iff, ← List.reverse_eq_nil_iff]
    exact mt trimEnd_eq_nil_iff.1 h
  rw [trimEnd, List.reverse_append, List.dropWhile_append, hne, if_neg Bool.false_ne_true,
    List.reverse_append, List.reverse_reverse, trimEnd]

theorem trimEnd_cons (hc : isBlank c = false) (s : List Char) : trimEnd (c :: s) = c :: trimEnd s := by
  by_cases h : ∀ d ∈ s, isBlank d
  · have hself : trimEnd [c] = [c] := trimEnd_eq_self fun d hd => Option.some.inj hd ▸ hc
    rw [trimEnd_eq_nil_iff.2 h, ← List.singleton_append, trimEnd_append_of_forall h, hself]
  · rw [← List.singleton_append, trimEnd_append h, List.singleton_append]

theorem trim_cons (hc : isBlank c = false) (s : List Char) : trim (c :: s) = c :: trimEnd s := by
  have hstart : trimStart (c :: s) = c :: s := trimStart_eq_self fun d hd => Option.some.inj hd ▸ hc
  rw [trim, hstart, trimEnd_cons hc]

/-- A trimmed text does not begin with a blank. -/
theorem isBlank_head_trim (h : trim s = c :: t) : isBlank c = false := by
  obtain ⟨u, hu⟩ : trim s <+: trimStart s := List.rdropWhile_prefix isBlank (trimStart s)
  have hhead := List.head?_dropWhile_not isBlank s
  have hdrop : s.dropWhile isBlank = c :: (t ++ u) := by
    rw [← List.cons_append, ← h, hu, trimStart]
  rw [hdrop] at hhead
  simpa using hhead

theorem isBlank_getLast_trim (h : c ∈ (trim s).getLast?) : isBlank c = false := by
  rw [trim, trimEnd, List.getLast?_reverse] at h
  have hhead := List.head?_dropWhile_not isBlank (trimStart s).reverse
  rw [Option.mem_def] at h
  rw [h] at hhead
  simpa using hhead

theorem trim_trim (s : List Char) : trim (trim s) = trim s := by
  refine trim_eq_self (fun c hc => ?_) fun c hc => isBlank_getLast_trim hc
  obtain ⟨t, ht⟩ := List.head?_eq_some_iff.1 hc
  exact isBlank_head_trim ht

end Chars

end UtilityCss
