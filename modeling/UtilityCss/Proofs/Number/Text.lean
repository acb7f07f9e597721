import UtilityCss.Json.Number

/-!
# How numbers are written

No letter but the one in front of an exponent stands in a number of a JSON text.
-/

namespace UtilityCss

section Digits

variable {c : Char}

theorem not_mem_digitsOf (hc : c.isDigit = false) (n : Nat) : c ∉ Chars.digitsOf n := by
  intro hmem
  rw [Chars.digitsOf] at hmem
  rw [Nat.isDigit_of_mem_toDigits (by omega) (by omega) hmem] at hc
  cases hc

theorem not_mem_zeros (hc : c.isDigit = false) (n : Nat) : c ∉ Chars.zeros n := by
  intro hmem
  obtain rfl := List.eq_of_mem_replicate hmem
  revert hc
  decide

private theorem not_mem_positional (hc : c.isDigit = false) (hpoint : c ≠ '.') (coefficient : Nat)
    (exponent : Int) : c ∉ Chars.positional coefficient exponent := by
  have hdigits := not_mem_digitsOf hc coefficient
  rw [Chars.positional]
  split
  · rw [List.mem_append, not_or]
    exact ⟨hdigits, not_mem_zeros hc _⟩
  · have hpadded (m : Nat) : c ∉ Chars.zeros m ++ Chars.digitsOf coefficient := by
      rw [List.mem_append, not_or]
      exact ⟨not_mem_zeros hc m, hdigits⟩
    rw [List.mem_append, List.mem_cons, not_or, not_or]
    exact ⟨fun h => hpadded _ (List.mem_of_mem_take h), hpoint,
      fun h => hpadded _ (List.mem_of_mem_drop h)⟩

private theorem not_mem_scientific (hc : c.isDigit = false) (hother : c ∉ ['.', 'e', '-', '+'])
    (coefficient : Nat) (exponent : Int) : c ∉ Chars.scientific coefficient exponent := by
  have hdigits := not_mem_digitsOf hc coefficient
  have htake : c ∉ (Chars.digitsOf coefficient).take 1 := fun h => hdigits (List.mem_of_mem_take h)
  have hdrop : c ∉ (Chars.digitsOf coefficient).drop 1 := fun h => hdigits (List.mem_of_mem_drop h)
  have hpower := not_mem_digitsOf hc
  simp only [List.mem_cons, List.not_mem_nil, or_false, not_or] at hother
  rw [Chars.scientific]
  simp only [List.mem_append, List.mem_cons, not_or]
  refine ⟨⟨htake, ?_⟩, hother.2.1, ?_, hpower _⟩
  · split
    · exact List.not_mem_nil
    · exact List.not_mem_cons_of_ne_of_not_mem hother.1 hdrop
  · split
    · exact hother.2.2.1
    · exact hother.2.2.2

private theorem not_mem_pointed (hc : c.isDigit = false) (hother : c ∉ ['.', 'e', '-', '+'])
    (coefficient : Nat) (exponent : Int) : c ∉ Chars.pointed coefficient exponent := by
  have hpoint : c ≠ '.' := List.ne_of_not_mem_cons hother
  have hzero : c ≠ '0' := by
    rintro rfl
    revert hc
    decide
  rw [Chars.pointed]
  split
  · rw [List.mem_append, not_or]
    refine ⟨not_mem_positional hc hpoint _ _, ?_⟩
    split
    · simp [hpoint, hzero]
    · exact List.not_mem_nil
  · exact not_mem_scientific hc hother _ _

end Digits

/-- A number is written with digits, signs, a point and the letter `e`. -/
theorem JsonNumber.not_mem_text {c : Char} (hc : c.isDigit = false) (hother : c ∉ ['.', 'e', '-', '+'])
    (n : JsonNumber) : c ∉ n.text.toList := by
  have hmem := hother
  simp only [List.mem_cons, List.not_mem_nil, or_false, not_or] at hother
  cases n with
  | integer n =>
    have hdigits := not_mem_digitsOf hc
    cases n with
    | ofNat n =>
      have htext : (integer (.ofNat n)).text.toList = Chars.digitsOf n := String.toList_ofList
      rw [htext]
      exact hdigits n
    | negSucc n =>
      have htext : (integer (.negSucc n)).text.toList = '-' :: Chars.digitsOf (n + 1) := by
        change ("-" ++ String.ofList (Chars.digitsOf (n + 1))).toList = _
        rw [String.toList_append, String.toList_ofList (l := Chars.digitsOf (n + 1))]
        rfl
      rw [htext, List.mem_cons, not_or]
      exact ⟨hother.2.2.1, hdigits _⟩
  | double negative x =>
    rw [text, String.toList_append, String.toList_ofList, List.mem_append, not_or]
    constructor
    · split
      · exact fun h => hother.2.2.1 (List.mem_singleton.1 h)
      · exact List.not_mem_nil
    · exact not_mem_pointed hc hmem _ _

/-- No number is written as a word. -/
theorem JsonNumber.text_ne_initial (n : JsonNumber) : n.text ≠ "initial" := by
  intro h
  have hnone := not_mem_text (c := 'n') (by decide) (by decide) n
  rw [h] at hnone
  exact hnone (by decide)

end UtilityCss
