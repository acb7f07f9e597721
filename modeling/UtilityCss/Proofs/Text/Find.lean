import Mathlib.Data.List.Basic
import UtilityCss.Text.Find

/-!
# Where a text begins, ends and contains another one
-/

namespace UtilityCss

namespace Chars

variable {phrase s rest : List Char} {c : Char}

theorem isPrefixOf?_isSome_iff : (phrase.isPrefixOf? s).isSome ↔ phrase <+: s := by
  rw [List.isSome_isPrefixOf?_eq_isPrefixOf, List.isPrefixOf_iff_prefix]

theorem isPrefixOf?_singleton_of_notMem (h : c ∉ s) : [c].isPrefixOf? s = none := by
  cases hrest : [c].isPrefixOf? s with
  | none => rfl
  | some rest =>
    obtain rfl := List.append_eq_of_isPrefixOf?_eq_some hrest
    exact absurd List.mem_cons_self h

theorem isSuffixOf?_singleton_of_notMem (h : c ∉ s) : [c].isSuffixOf? s = none := by
  have hprefix : [c].isPrefixOf? s.reverse = none :=
    isPrefixOf?_singleton_of_notMem (mt List.mem_reverse.1 h)
  exact congrArg (Option.map List.reverse) hprefix

/-- A text is cut at its first character of a kind. -/
theorem cutAt_eq_some_iff {p : Char → Bool} {a b : List Char} :
    cutAt p s = some (a, b) ↔ (∀ c ∈ a, p c = false) ∧ ∃ c, p c ∧ s = a ++ c :: b := by
  constructor
  · intro h
    induction s generalizing a with
    | nil => cases h
    | cons c s ih =>
      rw [cutAt] at h
      split at h
      · next hc =>
        cases h
        exact ⟨List.forall_mem_nil _, c, hc, rfl⟩
      · next hc =>
        obtain ⟨⟨a', b'⟩, hcut, hpair⟩ := Option.map_eq_some_iff.1 h
        obtain ⟨rfl, rfl⟩ := Prod.mk.inj hpair
        obtain ⟨hfront, d, hd, rfl⟩ := ih hcut
        exact ⟨List.forall_mem_cons.2 ⟨Bool.eq_false_iff.2 hc, hfront⟩, d, hd, rfl⟩
  · rintro ⟨hfront, c, hc, rfl⟩
    induction a with
    | nil => exact if_pos hc
    | cons d a ih =>
      rw [List.forall_mem_cons] at hfront
      rw [List.cons_append, cutAt, if_neg (Bool.eq_false_iff.1 hfront.1), ih hfront.2]
      rfl

theorem cutAt_append {p : Char → Bool} (hs : ∀ c ∈ s, p c = false) (hc : p c) :
    cutAt p (s ++ c :: rest) = some (s, rest) :=
  cutAt_eq_some_iff.2 ⟨hs, c, hc, rfl⟩

/-- The first place of a character is the one without another in front. -/
theorem cutAt_char_eq_some_iff {a b : List Char} :
    cutAt (· == c) s = some (a, b) ↔ c ∉ a ∧ s = a ++ c :: b := by
  have hfront : (∀ d ∈ a, (d == c) = false) ↔ c ∉ a := by
    simp only [beq_eq_false_iff_ne]
    exact ⟨fun h hmem => h c hmem rfl, fun h d hd heq => h (heq ▸ hd)⟩
  have hplace : (∃ d, (d == c) = true ∧ s = a ++ d :: b) ↔ s = a ++ c :: b := by
    simp only [beq_iff_eq, exists_eq_left]
  rw [cutAt_eq_some_iff, hfront, hplace]

theorem cutPhrase_isSome_iff : (cutPhrase phrase s).isSome ↔ phrase <:+: s := by
  induction s with
  | nil => cases phrase <;> simp [cutPhrase]
  | cons c s ih =>
    rw [List.infix_cons_iff, ← ih, ← isPrefixOf?_isSome_iff, cutPhrase]
    cases phrase.isPrefixOf? (c :: s) <;> simp

/-- What stands in front of the first occurrence of a text and behind it. -/
theorem append_of_cutPhrase {a b : List Char} (h : cutPhrase phrase s = some (a, b)) :
    s = a ++ phrase ++ b := by
  induction s generalizing a with
  | nil =>
    rw [cutPhrase] at h
    obtain ⟨hempty, h⟩ := Option.ite_none_right_eq_some.1 h
    obtain ⟨rfl, rfl⟩ := Prod.mk.inj (Option.some.inj h)
    rw [List.isEmpty_iff.1 hempty]
    rfl
  | cons c s ih =>
    rw [cutPhrase] at h
    split at h
    · next rest hrest =>
      obtain ⟨rfl, rfl⟩ := Prod.mk.inj (Option.some.inj h)
      exact (List.append_eq_of_isPrefixOf?_eq_some hrest).symm
    · obtain ⟨⟨a', b'⟩, hcut, heq⟩ := Option.map_eq_some_iff.1 h
      obtain ⟨rfl, rfl⟩ := Prod.mk.inj heq
      rw [ih hcut]
      rfl

end Chars

namespace Text

variable {lead tail s rest : String} {c : Char}

theorem cutAt_char_eq_some_iff {a b : String} :
    cutAt (· == c) s = some (a, b) ↔ c ∉ a.toList ∧ s.toList = a.toList ++ c :: b.toList := by
  rw [cutAt, Option.map_eq_some_iff, ← Chars.cutAt_char_eq_some_iff]
  constructor
  · rintro ⟨p, hcut, hp⟩
    obtain ⟨rfl, rfl⟩ := Prod.mk.inj hp
    rwa [String.toList_ofList, String.toList_ofList]
  · intro hcut
    exact ⟨_, hcut, by rw [asStrings, String.ofList_toList, String.ofList_toList]⟩

theorem cutAt_char_eq_none_iff : cutAt (· == c) s = none ↔ c ∉ s.toList := by
  constructor
  · intro h hmem
    obtain ⟨a, b, hs, hnot⟩ := List.eq_append_cons_of_mem hmem
    have hcut : cutAt (· == c) s = some (String.ofList a, String.ofList b) := by
      rw [cutAt_char_eq_some_iff, String.toList_ofList, String.toList_ofList]
      exact ⟨hnot, hs⟩
    rw [h] at hcut
    cases hcut
  · intro h
    cases hcut : cutAt (· == c) s with
    | none => rfl
    | some p =>
      obtain ⟨-, hs⟩ := cutAt_char_eq_some_iff.1 hcut
      exact absurd (hs ▸ List.mem_append_right _ List.mem_cons_self) h

theorem afterLead?_eq_some_iff : afterLead? lead s = some rest ↔ s = lead ++ rest := by
  rw [afterLead?, Option.map_eq_some_iff, ← String.toList_inj, String.toList_append]
  constructor
  · rintro ⟨t, ht, rfl⟩
    rw [String.toList_ofList]
    exact (List.append_eq_of_isPrefixOf?_eq_some ht).symm
  · intro h
    exact ⟨rest.toList, List.isPrefixOf?_eq_some_iff_append_eq.2 h.symm, String.ofList_toList⟩

theorem beforeTail?_eq_some_iff : beforeTail? tail s = some rest ↔ s = rest ++ tail := by
  rw [beforeTail?, Option.map_eq_some_iff, ← String.toList_inj, String.toList_append]
  constructor
  · rintro ⟨t, ht, rfl⟩
    rw [String.toList_ofList]
    exact (List.append_eq_of_isSuffixOf?_eq_some ht).symm
  · intro h
    exact ⟨rest.toList, List.isSuffixOf?_eq_some_iff_append_eq.2 h.symm, String.ofList_toList⟩

theorem append_of_cutPhrase {phrase a b : String} (h : cutPhrase phrase s = some (a, b)) :
    s = a ++ phrase ++ b := by
  obtain ⟨⟨a', b'⟩, hcut, heq⟩ := Option.map_eq_some_iff.1 h
  obtain ⟨rfl, rfl⟩ := Prod.mk.inj heq
  rw [← String.toList_inj, Chars.append_of_cutPhrase hcut]
  simp

theorem startsWith_iff : startsWith s lead ↔ ∃ rest, s = lead ++ rest := by
  rw [startsWith, List.isPrefixOf_iff_prefix]
  constructor
  · rintro ⟨t, ht⟩
    refine ⟨String.ofList t, ?_⟩
    rw [← String.toList_inj, String.toList_append, String.toList_ofList, ht]
  · rintro ⟨rest, rfl⟩
    rw [String.toList_append]
    exact List.prefix_append _ _

theorem endsWith_iff : endsWith s tail ↔ ∃ rest, s = rest ++ tail := by
  rw [endsWith, List.isSuffixOf_iff_suffix]
  constructor
  · rintro ⟨t, ht⟩
    refine ⟨String.ofList t, ?_⟩
    rw [← String.toList_inj, String.toList_append, String.toList_ofList, ht]
  · rintro ⟨rest, rfl⟩
    rw [String.toList_append]
    exact List.suffix_append _ _

end Text

end UtilityCss
