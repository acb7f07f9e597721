import UtilityCss.Proofs.Stylesheet.Digit
import UtilityCss.Proofs.Stylesheet.Scanner

/-!
# Where the text of a comment is hidden

What is written in a comment says nothing to the parser where all scanners that see it stand outside
of quotes, escapes and comments and mind comments. Two scanners do not fit in: the one that takes
comments away knows no escapes, so to it an escaped quote opens a string, and the one for the value of
a custom property with blocks knows no comments. Where a scanner has something else open, a comment's
text can end that and then the token.
-/

namespace UtilityCss

namespace Chars

def commented (t v : List Char) : List Char := '/' :: '*' :: (t ++ '*' :: '/' :: v)

def IsCommentText (t : List Char) : Prop := cutPhrase "*/".toList t = none

section Comment

variable {s t u v w : List Char} {d e : Nat} {slash : Bool}

theorem isCommentText_nil : IsCommentText [] := rfl

theorem isCommentText_of_not_mem (h : '*' ∉ t) : IsCommentText t := by
  induction t with
  | nil => rfl
  | cons c t ih =>
    rw [List.mem_cons, not_or] at h
    exact cutPhrase_close_cons.2 ⟨fun hstar => h.1 hstar.1.symm, ih h.2⟩

theorem stripComments_commented (ht : IsCommentText t) (v : List Char) :
    stripComments .plain (commented t v) = stripComments .plain v := by
  rw [commented, stripComments]
  induction t with
  | nil => rfl
  | cons c t ih =>
    obtain ⟨hopen, ht⟩ := cutPhrase_close_cons.1 ht
    rw [List.cons_append, stripComments_comment]
    · exact ih ht
    · rintro rfl hslash
      cases t with
      | nil => cases hslash
      | cons c t => exact hopen ⟨rfl, hslash⟩

/-- Where no quote is open a comment is taken away, whatever its text is. -/
theorem stripComments_hidden (h : Scanner.strip.run (.plain false, 0) s = some (.plain slash, e)) :
    ∃ front, ∀ t, IsCommentText t → ∀ v,
      stripComments .plain (s ++ commented t v) = front ++ stripComments .plain v := by
  obtain ⟨-, front, hrun⟩ := stripComments_run rfl h
  refine ⟨front ++ (Cursor.plain slash).ahead, fun t ht v => ?_⟩
  have hwhole := hrun (commented t v)
  change stripComments .plain (s ++ commented t v) =
    front ++ stripComments .plain ((Cursor.plain slash).ahead ++ commented t v) at hwhole
  rw [hwhole, List.append_assoc]
  cases slash with
  | false =>
    change front ++ stripComments .plain (commented t v) = _
    rw [stripComments_commented ht]
    rfl
  | true =>
    change front ++ stripComments .plain ('/' :: commented t v) = _
    rw [stripComments_plain (by simp [commented])]
    change front ++ '/' :: stripComments .plain (commented t v) = _
    rw [stripComments_commented ht]
    rfl

/-- The scan of a prelude goes on behind a comment as if it were not there. -/
theorem scanPrelude_hidden
    (h : Scanner.prelude.run (.plain false, 0) s = some (.plain slash, d)) (ht : IsCommentText t)
    (v : List Char) : scanPrelude .plain 0 (s ++ commented t v) =
      (scanPrelude .plain d v).map fun p => (s ++ commented t p.1, p.2) := by
  have hrun : Scanner.prelude.run (.plain false, 0) (s ++ '/' :: '*' :: (t ++ ['*', '/'])) =
      some (.plain false, d) :=
    (Scanner.run_append_of h).trans (Scanner.run_commented rfl slash d ht)
  obtain ⟨front, hfront, htake⟩ := scanPrelude_run hrun
  have hwhole := htake v
  have hfront : s ++ '/' :: '*' :: (t ++ ['*', '/']) = front := by
    simpa [Cursor.ahead] using hfront
  have htext : s ++ commented t v = s ++ '/' :: '*' :: (t ++ ['*', '/']) ++ v := by
    simp [commented]
  rw [htext]
  refine hwhole.trans ?_
  change (scanPrelude .plain d v).map _ = _
  congr 1
  funext p
  rw [behind, ← hfront]
  simp [commented]

/-- A comment in front of no character of a name does not change the name. -/
theorem takeWhile_commented (s t v : List Char) :
    (s ++ commented t v).takeWhile isNameChar = s.takeWhile isNameChar := by
  induction s with
  | nil => exact List.takeWhile_cons_of_neg (by decide +kernel)
  | cons c s ih =>
    rw [List.cons_append, List.takeWhile_cons, List.takeWhile_cons, ih]

theorem dropWhile_commented (s t v : List Char) :
    (s ++ commented t v).dropWhile isNameChar = s.dropWhile isNameChar ++ commented t v := by
  induction s with
  | nil => exact List.dropWhile_cons_of_neg (by decide +kernel)
  | cons c s ih =>
    rw [List.cons_append, List.dropWhile_cons, List.dropWhile_cons, ih]
    split
    · rfl
    · rfl

theorem dropGap_append (h : dropGap s ≠ []) (w : List Char) : dropGap (s ++ w) = dropGap s ++ w := by
  rw [dropGap] at h ⊢
  rw [List.dropWhile_append, if_neg (by simpa using h), dropGap]

theorem dropGap_append_of_nil (h : dropGap s = []) (w : List Char) :
    dropGap (s ++ w) = dropGap w := by
  rw [dropGap] at h ⊢
  rw [List.dropWhile_append, if_pos (by simpa using h), dropGap]

theorem dropGap_commented (t v : List Char) : dropGap (commented t v) = commented t v :=
  List.dropWhile_cons_of_neg (by decide)

theorem isCustomProperty_commented (s t v : List Char) :
    isCustomProperty (trimStart (s ++ commented t v)) = isCustomProperty (trimStart s) := by
  rw [trimStart, trimStart, List.dropWhile_append]
  split
  · next h =>
    have hslash : (commented t v).dropWhile isBlank = commented t v :=
      List.dropWhile_cons_of_neg (by decide)
    rw [hslash, List.isEmpty_iff.1 h]
    rfl
  · next h =>
    generalize s.dropWhile isBlank = s at h
    cases s with
    | nil => exact absurd rfl h
    | cons c s =>
      cases s with
      | nil => simp [isCustomProperty, commented, List.isPrefixOf]
      | cons c' s => rfl

theorem startsCustomProperty_commented (s t v : List Char) :
    startsCustomProperty (s ++ commented t v) =
      (isCustomProperty (trimStart s) && (s ++ commented t v).contains ':') := by
  rw [startsCustomProperty, isCustomProperty_commented]

end Comment

section Breakout

variable {s : List Char} {p : Cursor} {d : Nat}

private theorem closes_prelude : Scanner.prelude.Closes := ⟨rfl, fun _ => rfl⟩

private theorem closes_value : Scanner.value.Closes := ⟨rfl, fun _ => rfl⟩

theorem commented_breakout (t v : List Char) : commented (t ++ ":;a;".toList) v =
    '/' :: '*' :: (t ++ [':']) ++ ';' :: 'a' :: ';' :: '*' :: '/' :: v := by
  simp [commented]

theorem isCommentText_breakout {t : List Char} (h : '*' ∉ t) :
    IsCommentText (t ++ ":;a;".toList) := by
  apply isCommentText_of_not_mem
  rw [List.mem_append, not_or]
  exact ⟨h, by decide⟩

/-- Where the scan of a prelude stands inside a quote, an escape or a comment, a comment's text can
end the prelude. -/
theorem exists_scanPrelude_breakout
    (h : Scanner.prelude.run (.plain false, 0) s = some (p, d)) (hp : p.isPlain = false) :
    ∃ t, IsCommentText t ∧ ∀ v, ∃ front back,
      scanPrelude .plain 0 (s ++ commented t v) = .ok (front, ';' :: 'a' :: ';' :: back) := by
  obtain ⟨t, hstar, hrun⟩ := Scanner.exists_run_breakout closes_prelude
    (fun q => Scanner.isQuote_of_run h) (fun _ => hp) d
  refine ⟨t ++ ":;a;".toList, isCommentText_breakout hstar, fun v => ?_⟩
  obtain ⟨front, -, htake⟩ := scanPrelude_run ((Scanner.run_append_of h).trans hrun)
  rw [commented_breakout, ← List.append_assoc]
  exact ⟨_, _, htake (';' :: 'a' :: ';' :: '*' :: '/' :: v)⟩

/-- Inside the value of a custom property with blocks a comment's text can always end it. -/
theorem exists_scanValue_breakout (h : Scanner.value.run (.plain false, 0) s = some (p, d)) :
    ∃ t, IsCommentText t ∧ ':' ∈ t ∧ ∀ v, ∃ front back,
      scanValue none 0 (s ++ commented t v) = (front, ';' :: 'a' :: ';' :: back) := by
  obtain ⟨t, hstar, hrun⟩ := Scanner.exists_run_breakout closes_value
    (fun q => Scanner.isQuote_of_run h) (fun h => by cases h) d
  refine ⟨t ++ ":;a;".toList, isCommentText_breakout hstar, by simp, fun v => ?_⟩
  obtain ⟨-, front, -, htake⟩ := scanValue_run rfl ((Scanner.run_append_of h).trans hrun)
  rw [commented_breakout, ← List.append_assoc]
  exact ⟨_, _, htake (';' :: 'a' :: ';' :: '*' :: '/' :: v)⟩

/-- A comment ends at the first sign for that. -/
theorem eq_of_cutPhrase {text rest : List Char} (h : cutPhrase "*/".toList s = some (text, rest)) :
    s = text ++ '*' :: '/' :: rest ∧ IsCommentText text := by
  induction s generalizing text with
  | nil => cases h
  | cons c s ih =>
    rw [cutPhrase] at h
    split at h
    · next r hphrase =>
      cases h
      exact ⟨(List.append_eq_of_isPrefixOf?_eq_some hphrase).symm, rfl⟩
    · next hphrase =>
      obtain ⟨⟨text', rest'⟩, hcut, hpair⟩ := Option.map_eq_some_iff.1 h
      obtain ⟨rfl, rfl⟩ := Prod.mk.inj hpair
      obtain ⟨rfl, htext⟩ := ih hcut
      refine ⟨rfl, cutPhrase_close_cons.2 ⟨?_, htext⟩⟩
      rw [← Option.not_isSome_iff_eq_none, isPrefixOf?_isSome_iff] at hphrase
      rintro ⟨rfl, hslash⟩
      obtain ⟨rest, rfl⟩ := List.head?_eq_some_iff.1 hslash
      exact hphrase ⟨_, rfl⟩

theorem cutPhrase_append {text rest : List Char} (h : cutPhrase "*/".toList s = some (text, rest))
    (w : List Char) : cutPhrase "*/".toList (s ++ w) = some (text, rest ++ w) := by
  obtain ⟨rfl, htext⟩ := eq_of_cutPhrase h
  rw [List.append_assoc, List.cons_append, List.cons_append]
  exact cutPhrase_comment htext

theorem IsCommentText.of_append {t : List Char} (h : IsCommentText (s ++ t)) : IsCommentText s := by
  rw [IsCommentText, Option.eq_none_iff_forall_ne_some]
  rintro ⟨text, rest⟩ hcut
  rw [IsCommentText, cutPhrase_append hcut] at h
  cases h

/-- In an open comment the slash of a further sign, or one in its text, ends it. -/
theorem exists_cutPhrase_breakout (h : IsCommentText s) (v : List Char) : ∃ text back,
    (back = ';' :: 'a' :: ';' :: '*' :: '/' :: v ∨
        back = '*' :: '/' :: ';' :: 'a' :: ';' :: '*' :: '/' :: v) ∧
      cutPhrase "*/".toList (s ++ commented "/;a;".toList v) = some (text, back) := by
  obtain rfl | ⟨front, c, rfl⟩ := s.eq_nil_or_concat
  · exact ⟨['/'], _, .inl rfl, rfl⟩
  · rw [List.concat_eq_append] at h ⊢
    -- behind a star the slash of the sign ends the comment, else the one in the text does
    by_cases hstar : c = '*'
    · subst hstar
      have htext : front ++ ['*'] ++ commented "/;a;".toList v =
          front ++ '*' :: '/' :: '*' :: '/' :: ';' :: 'a' :: ';' :: '*' :: '/' :: v := by
        simp [commented]
      rw [htext]
      exact ⟨front, _, .inr rfl, cutPhrase_comment h.of_append⟩
    · have hslash : IsCommentText (front ++ [c] ++ ['/']) := by
        rw [IsCommentText, Option.eq_none_iff_forall_ne_some]
        rintro ⟨text, rest⟩ hcut
        obtain ⟨heq, htext⟩ := eq_of_cutPhrase hcut
        obtain rfl | ⟨rest', d, rfl⟩ := rest.eq_nil_or_concat
        · rw [List.append_cons text] at heq
          have hend := List.append_inj_left' heq rfl
          exact hstar (by simpa using List.append_inj_right' hend rfl)
        · rw [List.concat_eq_append, ← List.cons_append, ← List.cons_append, ← List.append_assoc]
            at heq
          rw [List.append_inj_left' heq rfl, IsCommentText, cutPhrase_comment htext] at h
          cases h
      have htext : front ++ [c] ++ commented "/;a;".toList v =
          front ++ [c] ++ ['/'] ++ '*' :: '/' :: ';' :: 'a' :: ';' :: '*' :: '/' :: v := by
        simp [commented]
      rw [htext]
      exact ⟨_, _, .inl rfl, cutPhrase_comment hslash⟩

end Breakout

end Chars

end UtilityCss
