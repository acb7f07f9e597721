/-!
# Characters of a text by their codes

The characters of an ASCII text are its bytes, and reading these is much less work for the kernel
than decoding them. `Text.chars` is for the evaluation of tests on constant texts.
-/

namespace UtilityCss

/-- Whether something holds of all characters of a text is tested on these, not on all characters
that there are. -/
instance decidableForallMemChar (s : List Char) (p : Char → Prop) [DecidablePred p] :
    Decidable (∀ c ∈ s, p c) :=
  List.decidableBAll p s

namespace Chars

section Class

variable {c : Char}

theorem isLower_iff : c.isLower ↔ 97 ≤ c.toNat ∧ c.toNat ≤ 122 := by
  have h : c.isLower = (decide (97 ≤ c.val) && decide (c.val ≤ 122)) := rfl
  rw [h, Bool.and_eq_true, decide_eq_true_eq, decide_eq_true_eq, UInt32.le_iff_toNat_le,
    UInt32.le_iff_toNat_le]
  rfl

theorem isUpper_iff : c.isUpper ↔ 65 ≤ c.toNat ∧ c.toNat ≤ 90 := by
  have h : c.isUpper = decide (65 ≤ c.val ∧ c.val ≤ 90) := rfl
  rw [h, decide_eq_true_eq, UInt32.le_iff_toNat_le, UInt32.le_iff_toNat_le]
  rfl

theorem isAlphanum_iff : c.isAlphanum ↔ (c.isUpper ∨ c.isLower) ∨ c.isDigit := by
  have h : c.isAlphanum = (c.isUpper || c.isLower || c.isDigit) := rfl
  rw [h, Bool.or_eq_true, Bool.or_eq_true]

/-- What holds of the characters with the first 128 codes holds of every ASCII character. -/
theorem of_forall_ofNat {P : Char → Prop} (h : ∀ n < 128, P (Char.ofNat n)) (hc : c.toNat < 128) :
    P c := by
  have hcode := h c.toNat hc
  rwa [Char.ofNat_toNat] at hcode

end Class

def codes (s : List Char) : List Nat :=
  (s.flatMap String.utf8EncodeChar).map UInt8.toNat

theorem codes_char {c : Char} (h : ∀ n ∈ (String.utf8EncodeChar c).map UInt8.toNat, n ≤ 127) :
    (String.utf8EncodeChar c).map UInt8.toNat = [c.toNat] := by
  have hval : c.toNat = c.val.toNat := rfl
  have hfirst {n : Nat} {bs : List UInt8} (hn : 128 ≤ n % 256)
      (h : ∀ m ∈ (UInt8.ofNat n :: bs).map UInt8.toNat, m ≤ 127) : False := by
    have hle := h (UInt8.ofNat n).toNat (by simp)
    rw [UInt8.toNat_ofNat'] at hle
    omega
  rw [String.utf8EncodeChar] at h ⊢
  split at h
  · next hle =>
    rw [if_pos hle, hval]
    simp
    omega
  · split at h
    · exact (hfirst (by omega) h).elim
    · split at h
      · exact (hfirst (by omega) h).elim
      · exact (hfirst (by omega) h).elim

private theorem eq_map_codes {s : List Char} (h : ∀ n ∈ codes s, n ≤ 127) :
    s = (codes s).map Char.ofNat := by
  induction s with
  | nil => rfl
  | cons c s ih =>
    have hcodes : codes (c :: s) = (String.utf8EncodeChar c).map UInt8.toNat ++ codes s := by
      rw [codes, List.flatMap_cons, List.map_append, codes]
    rw [hcodes] at h ⊢
    have hc := codes_char fun n hn => h n (List.mem_append_left _ hn)
    have hs := ih fun n hn => h n (List.mem_append_right _ hn)
    rw [hc, List.singleton_append, List.map_cons, ← hs, Char.ofNat_toNat]

end Chars

namespace Text

def codes (s : String) : List Nat := s.toByteArray.data.toList.map UInt8.toNat

private theorem codes_eq (s : String) : codes s = Chars.codes s.toList := by
  have hbytes : s.toByteArray = s.toList.utf8Encode := by
    rw [← String.toByteArray_ofList, String.ofList_toList]
  rw [codes, hbytes, List.utf8Encode, List.toList_data_toByteArray, Chars.codes]

def chars (s : String) : List Char :=
  if (codes s).all (Nat.ble · 127) then (codes s).map Char.ofNat else s.toList

theorem chars_eq (s : String) : chars s = s.toList := by
  rw [chars]
  split
  · next h =>
    rw [codes_eq] at h ⊢
    refine (Chars.eq_map_codes fun n hn => ?_).symm
    exact Nat.le_of_ble_eq_true (List.all_eq_true.1 h n hn)
  · rfl

end Text

end UtilityCss
