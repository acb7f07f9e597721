import UtilityCss.Text.Blank
import UtilityCss.Text.Nesting

/-!
# Texts in which all is closed

A text in which all brackets and quotes are closed and no escape is open means the same wherever it
stands: `segment` splits in front of it and behind it as it would without it, and inside brackets it
does not split at all.
-/

namespace UtilityCss

def Nesting.inside (n : Nesting) (closers : List Char) : Nesting :=
  ⟨n.quote, n.closers ++ closers⟩

theorem isQuote_iff {c : Char} : isQuote c ↔ c = '"' ∨ c = '\'' := by
  rw [isQuote, Bool.or_eq_true, beq_iff_eq, beq_iff_eq]

namespace Chars

/-- What is open behind a text, unless a closing bracket in it does not fit or its last character is
a backslash that escapes what would follow. -/
def nestingAfter? : Nesting → List Char → Option Nesting
  | n, [] => some n
  | _, ['\\'] => none
  | n, '\\' :: _ :: s => nestingAfter? n s
  | n, c :: s => (n.next? c).bind (nestingAfter? · s)

/-- Whether a text leaves no bracket, quote or escape open and closes none that it has not opened. -/
def IsWhole (s : List Char) : Prop := nestingAfter? {} s = some {}

instance : DecidablePred IsWhole :=
  fun s => inferInstanceAs (Decidable (nestingAfter? {} s = some {}))

/-- Whether a text that is read from the state `n` is not split. -/
def IsUncut (sep : Char) (n : Nesting) (s : List Char) : Prop := (segmentFrom sep n s).2 = []

section Step

variable {n m : Nesting} {s : List Char} {c : Char}

theorem eq_of_isTop (h : n.isTop) : n = {} := by
  obtain ⟨quote, closers⟩ := n
  simp only [Nesting.isTop, Bool.and_eq_true, Option.isNone_iff_eq_none, List.isEmpty_iff] at h
  obtain ⟨rfl, rfl⟩ := h
  rfl

theorem eq_next_of_next? (h : n.next? c = some m) : m = n.next c := by
  rw [Nesting.next?] at h
  split at h
  · cases h
  · exact (Option.some.inj h).symm

theorem balancedFrom_cons (hc : c ≠ '\\') :
    balancedFrom n (c :: s) = (n.next? c).any (balancedFrom · s) := by
  rw [balancedFrom]
  · cases n.next? c <;> rfl
  · exact fun h _ => hc h
  · exact fun _ _ h _ => hc h

/-- What a character that fits does outside of quotes: it opens a quote, a bracket or a brace, closes
the innermost bracket or brace, or means nothing. -/
theorem next?_cases {closers : List Char} (h : Nesting.next? ⟨none, closers⟩ c = some m) :
    (isQuote c ∧ m = ⟨some c, closers⟩) ∨
    ((c = '(' ∨ c = '[') ∧ ∃ d, d ≠ '\x7d' ∧ m = ⟨none, d :: closers⟩) ∨
    (c = '\x7b' ∧ m = ⟨none, '\x7d' :: closers⟩) ∨
    ((c = ')' ∨ c = ']' ∨ c = '\x7d') ∧ ∃ tail, closers = c :: tail ∧ m = ⟨none, tail⟩) ∨
    (isQuote c = false ∧ c ∉ ['(', '[', '\x7b', ')', ']', '\x7d'] ∧ m = ⟨none, closers⟩) := by
  by_cases hquote : isQuote c
  · have hcloser : isCloser c = false := by grind [isQuote, isCloser]
    simp [Nesting.next?, Nesting.next, hquote, hcloser] at h
    exact .inl ⟨hquote, h.symm⟩
  · by_cases hopen : c = '(' ∨ c = '[' ∨ c = '\x7b'
    · right
      rcases hopen with rfl | rfl | rfl
      · exact .inl ⟨.inl rfl, ')', by decide, (Option.some.inj h).symm⟩
      · exact .inl ⟨.inr rfl, ']', by decide, (Option.some.inj h).symm⟩
      · exact .inr (.inl ⟨rfl, (Option.some.inj h).symm⟩)
    · have hopens : closer? c = none := by grind [closer?]
      by_cases hclose : c = ')' ∨ c = ']' ∨ c = '\x7d'
      · have hcloser : isCloser c := by grind [isCloser]
        refine .inr (.inr (.inr (.inl ⟨hclose, ?_⟩)))
        cases closers with
        | nil => simp [Nesting.next?, hcloser] at h
        | cons d tail =>
          by_cases hd : d = c
          · subst hd
            simp [Nesting.next?, Nesting.next, hquote, hopens, hcloser] at h
            exact ⟨tail, rfl, h.symm⟩
          · simp [Nesting.next?, hcloser, hd] at h
      · have hcloser : isCloser c = false := by grind [isCloser]
        simp [Nesting.next?, Nesting.next, hquote, hopens, hcloser] at h
        refine .inr (.inr (.inr (.inr ⟨by simpa using hquote, ?_, h.symm⟩)))
        simp only [List.mem_cons, List.not_mem_nil, or_false]
        grind

/-- Inside of quotes only the quote changes what is open. -/
theorem next?_quoted {q : Char} {closers : List Char}
    (h : Nesting.next? ⟨some q, closers⟩ c = some m) :
    m = ⟨if c == q then none else some q, closers⟩ := by
  obtain rfl := Option.some.inj h
  rw [Nesting.next]
  by_cases hc : c == q <;> simp [hc]

theorem quote_of_next (hq : ∀ q ∈ n.quote, isQuote q) (h : n.next? c = some m) :
    ∀ q ∈ m.quote, isQuote q := by
  obtain ⟨quote, closers⟩ := n
  cases quote with
  | some q =>
    obtain rfl := next?_quoted h
    have hquote : isQuote q := hq q rfl
    grind
  | none =>
    rcases next?_cases h with ⟨hquote, rfl⟩ | ⟨-, d, -, rfl⟩ | ⟨-, rfl⟩ | ⟨-, tail, -, rfl⟩ |
      ⟨-, -, rfl⟩
    · rintro _ ⟨⟩
      exact hquote
    all_goals exact nofun

/-- A character that is no quote and no bracket changes nothing outside of quotes. -/
theorem next_of_notMem {closers : List Char}
    (hc : c ∉ ['"', '\'', '(', '[', '\x7b', ')', ']', '\x7d']) :
    Nesting.next ⟨none, closers⟩ c = ⟨none, closers⟩ := by
  simp only [List.mem_cons, List.not_mem_nil, or_false, not_or] at hc
  have hquote : isQuote c = false := by grind [isQuote]
  have hopens : closer? c = none := by grind [closer?]
  have hcloser : isCloser c = false := by grind [isCloser]
  simp [Nesting.next, hquote, hopens, hcloser]

theorem next?_inside (closers : List Char) (h : n.next? c = some m) :
    (n.inside closers).next? c = some (m.inside closers) := by
  obtain ⟨quote, inner⟩ := n
  cases quote with
  | some q =>
    obtain rfl := next?_quoted h
    rw [Nesting.inside, Nesting.inside, Nesting.next?, Nesting.next]
    by_cases hc : c == q <;> simp [hc]
  | none =>
    have heq := eq_next_of_next? h
    subst heq
    rw [Nesting.next?] at h ⊢
    cases inner with
    | nil => grind [Nesting.inside, Nesting.next, isQuote, isCloser, closer?]
    | cons d inner => grind [Nesting.inside, Nesting.next, isQuote, isCloser, closer?]

end Step

section Closed

variable {sep : Char} {n m : Nesting} {c : Char} {s t : List Char}

theorem ne_backslash (hlast : c = '\\' → s = [] → False)
    (hescape : ∀ d t, c = '\\' → s = d :: t → False) : c ≠ '\\' := by
  intro hc
  cases s with
  | nil => exact hlast hc rfl
  | cons d s => exact hescape d s hc rfl

theorem nestingAfter?_cons (hc : c ≠ '\\') :
    nestingAfter? n (c :: s) = (n.next? c).bind (nestingAfter? · s) := by
  rw [nestingAfter?]
  · exact fun h _ => hc h
  · exact fun _ _ h _ => hc h

theorem nestingAfter?_append (h : nestingAfter? n s = some m) :
    nestingAfter? n (s ++ t) = nestingAfter? m t := by
  fun_induction nestingAfter? n s with
  | case1 n =>
    cases h
    rfl
  | case2 => cases h
  | case3 n c s ih => exact ih h
  | case4 n c s hlast hescape ih =>
    obtain ⟨n', hn', h⟩ := Option.bind_eq_some_iff.1 h
    rw [List.cons_append, nestingAfter?_cons (ne_backslash hlast hescape), hn', Option.bind_some]
    exact ih n' h

theorem isBalanced_of_nestingAfter? (h : nestingAfter? n s = some m) (hm : m.isTop) :
    balancedFrom n s := by
  fun_induction nestingAfter? n s with
  | case1 n =>
    cases h
    exact hm
  | case2 => cases h
  | case3 n c s ih => exact ih h
  | case4 n c s hlast hescape ih =>
    obtain ⟨n', hn', h⟩ := Option.bind_eq_some_iff.1 h
    rw [balancedFrom_cons (ne_backslash hlast hescape), hn']
    exact ih n' h

theorem segmentFrom_cons (hc : c ≠ '\\') :
    segmentFrom sep n (c :: s) =
      if c == sep && n.isTop && !isQuote c && (closer? c).isNone && !isCloser c then
        ([], (segmentFrom sep n s).1 :: (segmentFrom sep n s).2)
      else (c :: (segmentFrom sep (n.next c) s).1, (segmentFrom sep (n.next c) s).2) := by
  rw [segmentFrom]
  · exact fun h _ => hc h
  · exact fun _ _ h _ => hc h

theorem isUncut_cons (hc : c ≠ '\\') :
    IsUncut sep n (c :: s) ↔
      (c == sep && n.isTop && !isQuote c && (closer? c).isNone && !isCloser c) = false ∧
        IsUncut sep (n.next c) s := by
  rw [IsUncut, segmentFrom_cons hc, IsUncut]
  cases c == sep && n.isTop && !isQuote c && (closer? c).isNone && !isCloser c <;> simp

/-- Behind a text that is not split, splitting goes on from what is open there. -/
theorem segmentFrom_append (h : nestingAfter? n s = some m) (huncut : IsUncut sep n s) :
    segmentFrom sep n (s ++ t) = (s ++ (segmentFrom sep m t).1, (segmentFrom sep m t).2) := by
  fun_induction nestingAfter? n s with
  | case1 n =>
    cases h
    rfl
  | case2 => cases h
  | case3 n c s ih =>
    rw [List.cons_append, List.cons_append, segmentFrom, ih h huncut]
    rfl
  | case4 n c s hlast hescape ih =>
    have hc := ne_backslash hlast hescape
    obtain ⟨n', hn', h⟩ := Option.bind_eq_some_iff.1 h
    obtain ⟨hkeep, huncut⟩ := (isUncut_cons hc).1 huncut
    obtain rfl := eq_next_of_next? hn'
    rw [List.cons_append, segmentFrom_cons hc, hkeep, ih _ h huncut]
    rfl

theorem IsUncut.append (h : nestingAfter? n s = some m) (hs : IsUncut sep n s)
    (ht : IsUncut sep m t) : IsUncut sep n (s ++ t) := by
  rw [IsUncut, segmentFrom_append h hs]
  exact ht

/-- Inside of brackets, what is whole stays so and nothing is split. -/
theorem nestingAfter?_inside (closers : List Char) (h : nestingAfter? n s = some m) :
    nestingAfter? (n.inside closers) s = some (m.inside closers) := by
  fun_induction nestingAfter? n s with
  | case1 n =>
    cases h
    rfl
  | case2 => cases h
  | case3 n c s ih => exact ih h
  | case4 n c s hlast hescape ih =>
    obtain ⟨n', hn', h⟩ := Option.bind_eq_some_iff.1 h
    rw [nestingAfter?_cons (ne_backslash hlast hescape), next?_inside closers hn', Option.bind_some]
    exact ih n' h

theorem isUncut_inside {closers : List Char} (hclosers : closers ≠ [])
    (h : nestingAfter? n s = some m) : IsUncut sep (n.inside closers) s := by
  have htop (n : Nesting) : (n.inside closers).isTop = false := by
    simp [Nesting.isTop, Nesting.inside, hclosers]
  fun_induction nestingAfter? n s with
  | case1 n => rfl
  | case2 => cases h
  | case3 n c s ih => exact ih h
  | case4 n c s hlast hescape ih =>
    obtain ⟨n', hn', h⟩ := Option.bind_eq_some_iff.1 h
    rw [isUncut_cons (ne_backslash hlast hescape), htop, eq_comm]
    refine ⟨by simp, ?_⟩
    rw [← eq_next_of_next? (next?_inside closers hn')]
    exact ih n' h

theorem IsUncut.of_append (h : IsUncut sep n (s ++ t)) : IsUncut sep n s := by
  induction n, s using segmentFrom.induct sep with
  | case1 => exact rfl
  | case2 => exact rfl
  | case3 n c s part parts hs ih => exact ih h
  | case4 n c s hlast hescape hcut part parts hs ih =>
    have hkeep := ((isUncut_cons (ne_backslash hlast hescape)).1 h).1
    rw [hcut] at hkeep
    cases hkeep
  | case5 n c s hlast hescape hcut part parts hs ih =>
    have hc := ne_backslash hlast hescape
    obtain ⟨hkeep, h⟩ := (isUncut_cons hc).1 h
    exact (isUncut_cons hc).2 ⟨hkeep, ih h⟩

/-- White space in front makes no difference. -/
theorem IsUncut.trimStart (h : IsUncut sep {} s) : IsUncut sep {} (trimStart s) := by
  induction s with
  | nil => exact h
  | cons c s ih =>
    rw [Chars.trimStart, List.dropWhile_cons]
    split
    · next hblank =>
      have hc : c ≠ '\\' := by
        rintro rfl
        cases hblank
      rw [isUncut_cons hc, next_of_notMem] at h
      · exact ih h.2
      · intro hmem
        simp only [List.mem_cons, List.not_mem_nil, or_false] at hmem
        rcases hmem with rfl | rfl | rfl | rfl | rfl | rfl | rfl | rfl <;> cases hblank
    · exact h

theorem IsUncut.trim (h : IsUncut sep {} s) : IsUncut sep {} (trim s) := by
  have hsuffix := List.dropWhile_suffix isBlank (l := (Chars.trimStart s).reverse)
  obtain ⟨t, ht⟩ := List.reverse_prefix.2 hsuffix
  rw [List.reverse_reverse] at ht
  have hstart := h.trimStart
  rw [← ht] at hstart
  exact hstart.of_append

theorem isUncut_segmentFrom (sep : Char) (n : Nesting) (s : List Char) :
    IsUncut sep n (segmentFrom sep n s).1 ∧ ∀ t ∈ (segmentFrom sep n s).2, IsUncut sep {} t := by
  fun_induction segmentFrom sep n s with
  | case1 => exact ⟨rfl, List.forall_mem_nil _⟩
  | case2 => exact ⟨rfl, List.forall_mem_nil _⟩
  | case3 n c s part parts hs ih =>
    rw [hs] at ih
    exact ih
  | case4 n c s hlast hescape hcut part parts hs ih =>
    have htop : n.isTop := by grind
    obtain rfl := eq_of_isTop htop
    rw [hs] at ih
    exact ⟨rfl, List.forall_mem_cons.2 ih⟩
  | case5 n c s hlast hescape hcut part parts hs ih =>
    rw [hs] at ih
    exact ⟨(isUncut_cons (ne_backslash hlast hescape)).2 ⟨Bool.eq_false_iff.2 hcut, ih.1⟩, ih.2⟩

theorem isUncut_of_mem_segment (h : t ∈ segment sep s) : IsUncut sep {} t := by
  obtain ⟨hfirst, hrest⟩ := isUncut_segmentFrom sep {} s
  rcases List.mem_cons.1 h with rfl | h
  · exact hfirst
  · exact hrest t h

private theorem length_of_mem_segmentFrom (n : Nesting) :
    ∀ t ∈ (segmentFrom sep n s).2, t.length ≤ s.length := by
  fun_induction segmentFrom sep n s with
  | case1 => exact List.forall_mem_nil _
  | case2 => exact List.forall_mem_nil _
  | case3 n c s part parts hs ih =>
    rw [hs] at ih
    exact fun t ht => Nat.le_add_right_of_le (Nat.le_add_right_of_le (ih t ht))
  | case4 n c s hlast hescape hcut part parts hs ih =>
    have hpart := length_segmentFrom sep n s
    rw [hs] at ih hpart
    refine List.forall_mem_cons.2 ⟨Nat.le_add_right_of_le hpart, fun t ht => ?_⟩
    exact Nat.le_add_right_of_le (ih t ht)
  | case5 n c s hlast hescape hcut part parts hs ih =>
    rw [hs] at ih
    exact fun t ht => Nat.le_add_right_of_le (ih t ht)

theorem length_of_mem_segment (h : t ∈ segment sep s) : t.length ≤ s.length := by
  rcases List.mem_cons.1 h with rfl | h
  · exact length_segmentFrom sep {} s
  · exact length_of_mem_segmentFrom {} t h

theorem segment_of_isUncut (hs : IsWhole s) (huncut : IsUncut sep {} s) : segment sep s = [s] := by
  have hsplit := segmentFrom_append (t := []) hs huncut
  rw [List.append_nil] at hsplit
  rw [segment, hsplit]
  exact congrArg (fun s => [s]) (List.append_nil s)

/-- In a text without escapes, quotes, brackets and separators nothing is opened or split. -/
theorem isWhole_of_forall
    (h : ∀ c ∈ s, c ∉ ['\\', sep, '"', '\'', '(', '[', '\x7b', ')', ']', '\x7d']) :
    IsWhole s ∧ IsUncut sep {} s := by
  induction s with
  | nil => exact ⟨rfl, rfl⟩
  | cons c s ih =>
    obtain ⟨hplain, hs⟩ := List.forall_mem_cons.1 h
    obtain ⟨hwhole, huncut⟩ := ih hs
    rw [List.mem_cons, List.mem_cons, not_or, not_or] at hplain
    obtain ⟨hescape, hsep, hplain⟩ := hplain
    have hnext : Nesting.next {} c = {} := next_of_notMem hplain
    have hfits : Nesting.next? {} c = some {} := by
      have hcloser : isCloser c = false := by grind [isCloser]
      rw [Nesting.next?, hcloser, hnext]
      rfl
    rw [IsWhole, nestingAfter?_cons hescape, hfits, isUncut_cons hescape, hnext,
      beq_false_of_ne hsep]
    exact ⟨hwhole, rfl, huncut⟩

private theorem isWhole_join (hs : IsWhole s) (ht : IsWhole t) :
    IsWhole (s ++ ',' :: ' ' :: t) := by
  rw [IsWhole, nestingAfter?_append hs]
  exact ht

/-- A list is split behind a whole text that is not split itself. -/
theorem segment_join (hs : IsWhole s) (huncut : IsUncut ',' {} s) :
    (segment ',' (s ++ ',' :: ' ' :: t)).map Chars.trim =
      Chars.trim s :: (segment ',' t).map Chars.trim := by
  have hsplit := segmentFrom_append (t := ',' :: ' ' :: t) hs huncut
  rw [segment, hsplit, segmentFrom_cons (by decide)]
  exact congrArg (Chars.trim · :: _) (List.append_nil s)

end Closed

end Chars

/-- The parts of a list are those that it is joined of, if they are whole and not split. -/
theorem segment_intercalate {parts : List String} (hne : parts ≠ [])
    (hparts : ∀ part ∈ parts, Chars.IsWhole part.toList ∧ Chars.IsUncut ',' {} part.toList) :
    Chars.IsWhole (", ".intercalate parts).toList ∧
      (Chars.segment ',' (", ".intercalate parts).toList).map Chars.trim =
        parts.map (Chars.trim ·.toList) := by
  induction parts with
  | nil => exact absurd rfl hne
  | cons part parts ih =>
    obtain ⟨hwhole, huncut⟩ := hparts part List.mem_cons_self
    cases parts with
    | nil =>
      rw [String.intercalate_singleton, Chars.segment_of_isUncut hwhole huncut]
      exact ⟨hwhole, rfl⟩
    | cons next parts =>
      obtain ⟨hrest, hsegment⟩ := ih (List.cons_ne_nil _ _) fun p hp =>
        hparts p (List.mem_cons_of_mem _ hp)
      have htext : (", ".intercalate (part :: next :: parts)).toList =
          part.toList ++ ',' :: ' ' :: (", ".intercalate (next :: parts)).toList := by
        rw [String.intercalate_cons_cons]
        simp
      rw [htext, Chars.segment_join hwhole huncut, hsegment]
      exact ⟨Chars.isWhole_join hwhole hrest, rfl⟩

end UtilityCss
