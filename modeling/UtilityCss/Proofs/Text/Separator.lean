import UtilityCss.Proofs.Text.Nesting

/-!
# Separators at the top level

The separators of a text are the places where the character stands while no bracket, quote or escape
is open in front of it. `segment` cuts a text at all of them and nowhere else, so that there is one
part more than there are separators, the last part is what is behind the last separator, and the
parts with the separators between them are the text.
-/

namespace UtilityCss

namespace Chars

/-- What is open behind a text, unless its last character is a backslash that escapes what would
follow. A closing bracket that does not fit closes nothing. -/
def openAfter? : Nesting → List Char → Option Nesting
  | n, [] => some n
  | _, ['\\'] => none
  | n, '\\' :: _ :: s => openAfter? n s
  | n, c :: s => openAfter? (n.next c) s

/-- The places of the separators of a text that is read from the state `n`, in order. -/
def separatorsFrom (sep : Char) (n : Nesting) (s : List Char) : List Nat :=
  (List.range s.length).filter fun i => s[i]? = some sep ∧ openAfter? n (s.take i) = some {}

def lastPartFrom (sep : Char) (n : Nesting) (s : List Char) : List Char :=
  match (separatorsFrom sep n s).getLast? with
  | none => s
  | some i => s.drop (i + 1)

/-- Whether a character can separate parts: it opens and closes nothing and escapes nothing. -/
def IsSeparator (sep : Char) : Prop :=
  sep ∉ ['\\', '"', '\'', '(', '[', '\x7b', ')', ']', '\x7d']

instance : DecidablePred IsSeparator :=
  fun sep => inferInstanceAs (Decidable (sep ∉ _))

section Separators

variable {sep c : Char} {n : Nesting} {s : List Char}

theorem IsSeparator.ne_backslash (h : IsSeparator sep) : sep ≠ '\\' := by
  rintro rfl
  exact h List.mem_cons_self

theorem IsSeparator.cuts_iff (h : IsSeparator sep) :
    (c == sep && n.isTop && !isQuote c && (closer? c).isNone && !isCloser c) ↔ c = sep ∧ n = {} := by
  constructor
  · intro hcut
    simp only [Bool.and_eq_true, beq_iff_eq] at hcut
    exact ⟨hcut.1.1.1.1, eq_of_isTop hcut.1.1.1.2⟩
  · rintro ⟨rfl, rfl⟩
    simp only [IsSeparator, List.mem_cons, List.not_mem_nil, or_false, not_or] at h
    have hquote : isQuote c = false := by grind [isQuote]
    have hopens : closer? c = none := by grind [closer?]
    have hcloser : isCloser c = false := by grind [isCloser]
    rw [hquote, hopens, hcloser, beq_self_eq_true]
    rfl

private theorem openAfter?_cons (hc : c ≠ '\\') :
    openAfter? n (c :: s) = openAfter? (n.next c) s := by
  rw [openAfter?]
  · exact fun h _ => hc h
  · exact fun _ _ h _ => hc h

theorem filter_range_succ (p : Nat → Bool) (k : Nat) :
    (List.range (k + 1)).filter p =
      (if p 0 then [0] else []) ++ ((List.range k).filter fun i => p (i + 1)).map (· + 1) := by
  rw [List.range_succ_eq_map, List.filter_cons, List.filter_map]
  split <;> rfl

theorem separatorsFrom_cons (hc : c ≠ '\\') :
    separatorsFrom sep n (c :: s) =
      (if c = sep ∧ n = {} then [0] else []) ++ (separatorsFrom sep (n.next c) s).map (· + 1) := by
  rw [separatorsFrom, List.length_cons, filter_range_succ, separatorsFrom]
  simp [openAfter?, openAfter?_cons hc]

theorem separatorsFrom_of_not (hc : c ≠ '\\') (hcut : ¬ (c = sep ∧ n = {})) :
    separatorsFrom sep n (c :: s) = (separatorsFrom sep (n.next c) s).map (· + 1) := by
  rw [separatorsFrom_cons hc, if_neg hcut]
  rfl

theorem separatorsFrom_escape (hsep : sep ≠ '\\') :
    separatorsFrom sep n ('\\' :: c :: s) = (separatorsFrom sep n s).map (· + 2) := by
  rw [separatorsFrom, List.length_cons, List.length_cons, filter_range_succ, filter_range_succ,
    separatorsFrom]
  simp [openAfter?, hsep.symm]

theorem separatorsFrom_backslash (hsep : sep ≠ '\\') : separatorsFrom sep n ['\\'] = [] := by
  simp [separatorsFrom, hsep.symm]

theorem lastPartFrom_of_eq_nil (h : separatorsFrom sep n s = []) : lastPartFrom sep n s = s := by
  rw [lastPartFrom, h]
  rfl

/-- What is in front of a text that has separators makes no difference to the last part. -/
theorem lastPartFrom_append {m : Nesting} {t : List Char} (front : List Nat)
    (hshift : separatorsFrom sep n (t ++ s) = front ++ (separatorsFrom sep m s).map (· + t.length))
    (hne : separatorsFrom sep m s ≠ []) : lastPartFrom sep n (t ++ s) = lastPartFrom sep m s := by
  obtain ⟨i, hi⟩ : ∃ i, (separatorsFrom sep m s).getLast? = some i :=
    ⟨_, List.getLast?_eq_some_getLast hne⟩
  have hdrop : (t ++ s).drop (i + t.length + 1) = s.drop (i + 1) := by
    rw [Nat.add_right_comm, Nat.add_comm, List.drop_append]
    simp
  rw [lastPartFrom, hshift, List.getLast?_append, List.getLast?_map, hi, lastPartFrom, hi]
  exact hdrop

end Separators

section Segment

variable {sep c : Char} {n : Nesting} {s : List Char}

theorem join_segmentFrom (sep : Char) (n : Nesting) (s : List Char) :
    (segmentFrom sep n s).1 ++ (segmentFrom sep n s).2.flatMap (sep :: ·) = s := by
  induction n, s using segmentFrom.induct sep with
  | case1 => rfl
  | case2 => rfl
  | case3 n c s part parts hs ih => exact congrArg ('\\' :: c :: ·) ih
  | case4 n c s hlast hescape hcut part parts hs ih =>
    obtain rfl : c = sep := by
      simp only [Bool.and_eq_true, beq_iff_eq] at hcut
      exact hcut.1.1.1.1
    rw [segmentFrom_cons (ne_backslash hlast hescape), if_pos hcut]
    exact congrArg (c :: ·) ih
  | case5 n c s hlast hescape hcut part parts hs ih =>
    rw [segmentFrom_cons (ne_backslash hlast hescape), if_neg hcut]
    exact congrArg (c :: ·) ih

variable (hsep : IsSeparator sep)

include hsep

theorem separatorsFrom_sep : separatorsFrom sep {} (sep :: s) =
    0 :: (separatorsFrom sep {} s).map (· + 1) := by
  have hnext : Nesting.next {} sep = {} :=
    next_of_notMem fun hmem => hsep (List.mem_cons_of_mem _ hmem)
  rw [separatorsFrom_cons hsep.ne_backslash, hnext, if_pos ⟨rfl, rfl⟩]
  rfl

theorem length_segmentFrom_snd (n : Nesting) (s : List Char) :
    (segmentFrom sep n s).2.length = (separatorsFrom sep n s).length := by
  induction n, s using segmentFrom.induct sep with
  | case1 => rfl
  | case2 n =>
    rw [separatorsFrom_backslash hsep.ne_backslash]
    rfl
  | case3 n c s part parts hs ih =>
    rw [separatorsFrom_escape hsep.ne_backslash, List.length_map, ← ih]
    rfl
  | case4 n c s hlast hescape hcut part parts hs ih =>
    obtain ⟨rfl, rfl⟩ := hsep.cuts_iff.1 hcut
    rw [segmentFrom_cons (ne_backslash hlast hescape), if_pos hcut, separatorsFrom_sep hsep,
      List.length_cons, List.length_cons, List.length_map, ih]
  | case5 n c s hlast hescape hcut part parts hs ih =>
    have hc := ne_backslash hlast hescape
    rw [segmentFrom_cons hc, if_neg hcut, separatorsFrom_of_not hc (mt hsep.cuts_iff.2 hcut),
      List.length_map]
    exact ih

/-- The text `t` in front is not cut, and the rest is read from the state `m`. -/
theorem lastPartFrom_eq_of_append {m : Nesting} {t : List Char}
    (hsegment : segmentFrom sep n (t ++ s) =
      (t ++ (segmentFrom sep m s).1, (segmentFrom sep m s).2))
    (hshift : separatorsFrom sep n (t ++ s) = (separatorsFrom sep m s).map (· + t.length))
    (hrest : lastPartFrom sep m s = (segmentFrom sep m s).2.getLastD (segmentFrom sep m s).1) :
    lastPartFrom sep n (t ++ s) =
      (segmentFrom sep n (t ++ s)).2.getLastD (segmentFrom sep n (t ++ s)).1 := by
  have hlength := length_segmentFrom_snd hsep m s
  rw [hsegment]
  by_cases hnone : separatorsFrom sep m s = []
  · rw [hnone] at hshift hlength
    rw [lastPartFrom_of_eq_nil hnone, List.eq_nil_of_length_eq_zero hlength] at hrest
    rw [lastPartFrom_of_eq_nil hshift, List.eq_nil_of_length_eq_zero hlength]
    exact congrArg (t ++ ·) hrest
  · rw [lastPartFrom_append [] hshift hnone, hrest]
    cases hparts : (segmentFrom sep m s).2 with
    | nil =>
      rw [hparts] at hlength
      exact absurd (List.eq_nil_of_length_eq_zero hlength.symm) hnone
    | cons part parts => rfl

private theorem lastPartFrom_eq (n : Nesting) (s : List Char) :
    lastPartFrom sep n s = (segmentFrom sep n s).2.getLastD (segmentFrom sep n s).1 := by
  induction n, s using segmentFrom.induct sep with
  | case1 => rfl
  | case2 n => exact lastPartFrom_of_eq_nil (separatorsFrom_backslash hsep.ne_backslash)
  | case3 n c s part parts hs ih =>
    exact lastPartFrom_eq_of_append hsep (t := ['\\', c]) rfl
      (separatorsFrom_escape hsep.ne_backslash) ih
  | case4 n c s hlast hescape hcut part parts hs ih =>
    obtain ⟨rfl, rfl⟩ := hsep.cuts_iff.1 hcut
    have hbehind : lastPartFrom c {} (c :: s) = lastPartFrom c {} s := by
      by_cases hnone : separatorsFrom c {} s = []
      · rw [lastPartFrom_of_eq_nil hnone, lastPartFrom, separatorsFrom_sep hsep, hnone]
        rfl
      · exact lastPartFrom_append (t := [c]) [0] (separatorsFrom_sep hsep) hnone
    rw [segmentFrom_cons (ne_backslash hlast hescape), if_pos hcut, hbehind, ih, List.getLastD_cons]
  | case5 n c s hlast hescape hcut part parts hs ih =>
    have hc := ne_backslash hlast hescape
    refine lastPartFrom_eq_of_append hsep (t := [c]) ?_
      (separatorsFrom_of_not hc (mt hsep.cuts_iff.2 hcut)) ih
    exact (segmentFrom_cons hc).trans (if_neg hcut)

end Segment

end Chars

/-- The number of places of a text where the separator stands at the top level. -/
def separatorCount (s : String) (sep : Char) : Nat := (Chars.separatorsFrom sep {} s.toList).length

def lastPart (s : String) (sep : Char) : String :=
  String.ofList (Chars.lastPartFrom sep {} s.toList)

theorem length_segment {sep : Char} (hsep : Chars.IsSeparator sep) (s : String) :
    (segment s sep).length = separatorCount s sep + 1 := by
  rw [segment, List.length_map, Chars.segment, List.length_cons, Chars.length_segmentFrom_snd hsep]
  rfl

theorem getLastD_segment {sep : Char} (hsep : Chars.IsSeparator sep) (s : String) :
    (segment s sep).getLastD "" = lastPart s sep := by
  rw [segment, Chars.segment, List.map_cons, List.getLastD_cons, lastPart,
    Chars.lastPartFrom_eq hsep, List.getLastD_eq_getLast?, List.getLast?_map, Option.getD_map,
    List.getLastD_eq_getLast?]

end UtilityCss
