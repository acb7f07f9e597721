import UtilityCss.Color.Alpha
import UtilityCss.Proofs.Text.Pieces

/-!
# Texts of colours and alpha values

Numbers and hexadecimal colours are tame texts, and a colour with transparency is all that the colour
and the modifier are.
-/

namespace UtilityCss

private theorem isTame_of_isDigit {c : Char} (hc : c.isDigit) : Chars.isTame c :=
  Chars.isTame_of (by decide) hc

theorem isTame_toDigits {n : Nat} {c : Char} (hc : c ∈ Nat.toDigits 10 n) : Chars.isTame c :=
  isTame_of_isDigit (Nat.isDigit_of_mem_toDigits (by decide) (by decide) hc)

theorem isTame_toString (n : Nat) : IsTame (toString n) := by
  intro c hc
  change c ∈ n.repr.toList at hc
  rw [Nat.toList_repr] at hc
  exact isTame_toDigits hc

private theorem isTame_toString_int (n : Int) : IsTame (toString n) := by
  cases n with
  | ofNat n => exact isTame_toString n
  | negSucc n =>
    have hminus : toString (Int.negSucc n) = "-" ++ toString (n + 1) := rfl
    rw [hminus, isTame_append]
    exact ⟨by decide, isTame_toString (n + 1)⟩

private theorem isTame_positional {n : Nat} {e : Int} :
    ∀ c ∈ Chars.positional n e, Chars.isTame c := by
  have hzeros (m : Nat) : ∀ c ∈ Chars.zeros m, Chars.isTame c := by
    intro c hc
    rw [List.eq_of_mem_replicate hc]
    decide
  have hdigits : ∀ c ∈ Chars.digitsOf n, Chars.isTame c := fun _ => isTame_toDigits
  rw [Chars.positional]
  split
  · intro c hc
    exact (List.mem_append.1 hc).elim (hdigits c) (hzeros _ c)
  · have hpadded (m : Nat) : ∀ c ∈ Chars.zeros m ++ Chars.digitsOf n, Chars.isTame c :=
      fun c hc => (List.mem_append.1 hc).elim (hzeros _ c) (hdigits c)
    intro c hc
    rcases List.mem_append.1 hc with hc | hc
    · exact hpadded _ c (List.mem_of_mem_take hc)
    · rcases List.mem_cons.1 hc with rfl | hc
      · decide
      · exact hpadded _ c (List.mem_of_mem_drop hc)

theorem isTame_binaryText (x : Binary) : IsTame x.text := by
  cases x with
  | nan => decide
  | infinite negative => cases negative <;> decide
  | finite x =>
    refine isTame_append.2 ⟨?_, ?_⟩
    · split <;> decide
    · intro c hc
      rw [String.toList_ofList] at hc
      exact isTame_positional c hc

theorem isTame_formatNumber (x : Binary) : IsTame (formatNumber x) := by
  unfold formatNumber
  dsimp only
  split
  · split
    · exact isTame_toString_int _
    · exact isTame_binaryText _
  · exact isTame_binaryText _

theorem isTame_channelText (n : UInt8) : ∀ c ∈ HexColor.channelText n, Chars.isTame c := by
  have hdigit : ∀ d < 16, Chars.isTame (Nat.digitChar d) := by decide
  have hhigh : n.toNat / 16 < 16 := by
    have := n.toNat_lt
    omega
  have hlow : n.toNat % 16 < 16 := Nat.mod_lt _ (by decide)
  intro c hc
  simp only [HexColor.channelText, List.mem_cons, List.not_mem_nil, or_false] at hc
  rcases hc with rfl | rfl
  · exact hdigit _ hhigh
  · exact hdigit _ hlow

theorem isTame_hexText (x : HexColor) : IsTame x.text := by
  rw [IsTame, HexColor.text]
  rw [String.toList_ofList]
  intro c hc
  have halpha : c ∈ (if x.alpha == 255 then [] else HexColor.channelText x.alpha) →
      Chars.isTame c := by
    split
    · exact fun hc => absurd hc List.not_mem_nil
    · exact isTame_channelText _ c
  simp only [List.cons_append, List.mem_cons, List.mem_append] at hc
  rcases hc with rfl | ((hc | hc) | hc) | hc
  · decide
  · exact isTame_channelText _ c hc
  · exact isTame_channelText _ c hc
  · exact isTame_channelText _ c hc
  · exact halpha hc

section Alpha

variable {P : String → Prop} {color alpha modifier s : String} {arbitrary : Bool}

theorem holds_percent (hP : TextLaws P) (h : P s) : P (s ++ "%") := hP.behind h (by decide)

/-- The alpha value of a modifier is the modifier itself or a number. -/
theorem holds_normalizeAlpha (hP : TextLaws P) (hmodifier : P (Text.trim modifier))
    (h : normalizeAlpha modifier arbitrary = some s) : P s := by
  unfold normalizeAlpha at h
  dsimp only at h
  split at h
  · cases h
  · split at h
    · obtain ⟨-, -, rfl⟩ := Option.map_eq_some_iff.1 h
      exact hmodifier
    · split at h
      · next x _ =>
        rw [numberAlpha?] at h
        split at h
        · cases h
          split
          · exact holds_percent hP (hP.tame (isTame_formatNumber _))
          · exact holds_percent hP hmodifier
        · split at h
          · cases h
            exact holds_percent hP hmodifier
          · cases h
      · split at h
        · cases h
          exact hmodifier
        · cases h

theorem holds_withAlpha (hP : TextLaws P) (hcolor : P color) (halpha : P alpha) :
    P (withAlpha color alpha) := by
  rw [withAlpha]
  split
  · exact hcolor
  · split
    · exact hP.tame (isTame_hexText _)
    · exact hP.surround₂ hcolor halpha (by decide) (by decide)

end Alpha

end UtilityCss
