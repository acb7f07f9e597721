import UtilityCss.Proofs.Stylesheet.Cursor

/-!
# What scanners take

Each function that scans a stylesheet goes through a text as its scanner does: it takes the text in
front of the cursor, all of it or without comments, and goes on in the state there.
-/

namespace UtilityCss

namespace Chars

section Prelude

variable {p q : Cursor} {d e : Nat} {c : Char} {s : List Char}

theorem scanPrelude_comment (h : c = '*' → s.head? ≠ some '/') :
    scanPrelude .comment d (c :: s) = (scanPrelude .comment d s).map (behind [c]) := by
  rw [scanPrelude]
  · rfl
  · rintro t rfl rfl
    exact h rfl rfl

/-- A character that does not complete the sign of a comment is taken by itself, if no sign and no
escape can begin with it. -/
theorem scanPrelude_next_plain {slash : Bool} (hopen : (slash && c == '*') = false)
    (h : Scanner.prelude.next (.plain slash, d) c = some (q, e)) :
    ∃ front, [c] = front ++ q.ahead ∧ ∀ s, scanPrelude .plain d (c :: s) =
      (scanPrelude q.scan e (q.ahead ++ s)).map (behind front) := by
  have hcomments : (Scanner.prelude.comments && slash && c == '*') = false := hopen
  rw [Scanner.next, hcomments, if_neg Bool.false_ne_true] at h
  split at h
  · cases h
  · next hend =>
    have hend : ¬ (d = 0 ∧ endsPrelude c) := by
      simpa [Scanner.prelude] using hend
    split at h
    · next hc =>
      obtain rfl : c = '\\' := by simpa [Scanner.prelude] using hc
      cases h
      exact ⟨[], rfl, fun s => (map_behind_nil _).symm⟩
    · next hc =>
      have hc : c ≠ '\\' := by simpa [Scanner.prelude] using hc
      split at h
      · next hquote =>
        cases h
        have hslash : c ≠ '/' := by
          rintro rfl
          exact absurd hquote (by decide)
        have hdepth : bracketDepth d c = d := by
          rcases isQuote_iff.1 hquote with rfl | rfl <;> rfl
        refine ⟨[c], rfl, fun s => ?_⟩
        rw [scanPrelude_plain hc (fun h => absurd h hslash) hend, Scan.enter, if_pos hquote, hdepth]
        rfl
      · next hquote =>
        by_cases hslash : c = '/'
        · subst hslash
          cases h
          exact ⟨[], rfl, fun s => (map_behind_nil _).symm⟩
        · have hplain : (c == '/') = false := beq_eq_false_iff_ne.2 hslash
          rw [hplain] at h
          cases h
          refine ⟨[c], rfl, fun s => ?_⟩
          rw [scanPrelude_plain hc (fun h => absurd h hslash) hend, Scan.enter, if_neg hquote]
          rfl

/-- In a comment a star is taken with the next character, and any other by itself. -/
theorem scanPrelude_next_comment (d : Nat) (c : Char) :
    ∃ front, [c] = front ++ (Cursor.comment (c == '*')).ahead ∧ ∀ s,
      scanPrelude .comment d (c :: s) =
        (scanPrelude .comment d ((Cursor.comment (c == '*')).ahead ++ s)).map (behind front) := by
  by_cases hc : c = '*'
  · subst hc
    exact ⟨[], rfl, fun s => (map_behind_nil _).symm⟩
  · rw [beq_eq_false_iff_ne.2 hc]
    exact ⟨[c], rfl, fun s => scanPrelude_comment fun h => absurd h hc⟩

private theorem scanPrelude_next_slash (hc : c ≠ '*')
    (h : Scanner.prelude.next (.plain true, d) c = some (q, e)) :
    ∃ front, ['/', c] = front ++ q.ahead ∧ ∀ s, scanPrelude .plain d ('/' :: c :: s) =
      (scanPrelude q.scan e (q.ahead ++ s)).map (behind front) := by
  obtain ⟨front, hfront, htake⟩ := scanPrelude_next_plain (by simp [hc]) h
  refine ⟨'/' :: front, congrArg (List.cons '/') hfront, fun s => ?_⟩
  rw [scanPrelude_plain (by decide) (by simp [hc]) (by simp [endsPrelude])]
  change (scanPrelude .plain d (c :: s)).map (behind ['/']) = _
  rw [htake, map_behind]
  rfl

private theorem scanPrelude_next_quoted {quote : Char}
    (h : Scanner.prelude.next (.quoted quote, d) c = some (q, e)) :
    ∃ front, [c] = front ++ q.ahead ∧ ∀ s, scanPrelude (.quoted quote) d (c :: s) =
      (scanPrelude q.scan e (q.ahead ++ s)).map (behind front) := by
  rw [Scanner.next] at h
  by_cases hc : c = '\\'
  · subst hc
    cases h
    exact ⟨[], rfl, fun s => (map_behind_nil _).symm⟩
  · rw [if_neg (by simp [hc])] at h
    split at h
    · next hquote =>
      cases h
      refine ⟨[c], rfl, fun s => ?_⟩
      rw [scanPrelude_quoted hc, Scan.leave, if_pos hquote]
      rfl
    · next hquote =>
      cases h
      refine ⟨[c], rfl, fun s => ?_⟩
      rw [scanPrelude_quoted hc, Scan.leave, if_neg hquote]
      rfl

private theorem scanPrelude_next_escaped {quote : Option Char}
    (h : Scanner.prelude.next (.escaped quote, d) c = some (q, e)) :
    ['\\', c] = ['\\', c] ++ q.ahead ∧ ∀ s,
      scanPrelude (Cursor.escaped quote).scan d ('\\' :: c :: s) =
        (scanPrelude q.scan e (q.ahead ++ s)).map (behind ['\\', c]) := by
  cases quote with
  | none =>
    cases h
    exact ⟨rfl, fun s => scanPrelude_escape .plain (by simp)⟩
  | some quote =>
    cases h
    exact ⟨rfl, fun s => scanPrelude_escape (.quoted quote) (by simp)⟩

/-- Behind a star in a comment, a character that does not close it is taken as it would be without the
star. -/
private theorem scanPrelude_next_star (d : Nat) (hc : c ≠ '/') :
    ∃ front, ['*', c] = front ++ (Cursor.comment (c == '*')).ahead ∧ ∀ s,
      scanPrelude .comment d ('*' :: c :: s) =
        (scanPrelude .comment d ((Cursor.comment (c == '*')).ahead ++ s)).map (behind front) := by
  obtain ⟨front, hfront, htake⟩ := scanPrelude_next_comment d c
  refine ⟨'*' :: front, congrArg (List.cons '*') hfront, fun s => ?_⟩
  rw [scanPrelude_comment (by simp [hc]), htake, map_behind]
  rfl

/-- The scan of a prelude goes on behind a character where its scanner stands. -/
theorem scanPrelude_next (h : Scanner.prelude.next (p, d) c = some (q, e)) :
    ∃ front, p.ahead ++ [c] = front ++ q.ahead ∧ ∀ s,
      scanPrelude p.scan d (p.ahead ++ c :: s) =
        (scanPrelude q.scan e (q.ahead ++ s)).map (behind front) := by
  cases p with
  | plain slash =>
    cases slash with
    | false => exact scanPrelude_next_plain (Bool.false_and _) h
    | true =>
      by_cases hc : c = '*'
      · subst hc
        cases h
        refine ⟨['/', '*'], rfl, fun s => ?_⟩
        change scanPrelude .plain d ('/' :: '*' :: s) = _
        rw [scanPrelude]
        rfl
      · exact scanPrelude_next_slash hc h
  | quoted quote => exact scanPrelude_next_quoted h
  | escaped quote => exact ⟨_, scanPrelude_next_escaped h⟩
  | comment star =>
    by_cases hclose : star ∧ c = '/'
    · obtain ⟨rfl, rfl⟩ := hclose
      cases h
      refine ⟨['*', '/'], rfl, fun s => ?_⟩
      change scanPrelude .comment d ('*' :: '/' :: s) = _
      rw [scanPrelude]
      rfl
    · rw [Scanner.next_comment hclose] at h
      cases h
      cases star with
      | false => exact scanPrelude_next_comment d c
      | true => exact scanPrelude_next_star d fun hslash => hclose ⟨rfl, hslash⟩

theorem scanPrelude_run (h : Scanner.prelude.run (p, d) s = some (q, e)) :
    ∃ front, p.ahead ++ s = front ++ q.ahead ∧ ∀ w,
      scanPrelude p.scan d (p.ahead ++ s ++ w) =
        (scanPrelude q.scan e (q.ahead ++ w)).map (behind front) := by
  induction s generalizing p d with
  | nil =>
    cases h
    exact ⟨[], List.append_nil _, fun w => by rw [List.append_nil, map_behind_nil]⟩
  | cons c s ih =>
    obtain ⟨⟨r, d'⟩, hr, h⟩ := Option.bind_eq_some_iff.1 h
    obtain ⟨first, hfirst, hnext⟩ := scanPrelude_next hr
    obtain ⟨front, hfront, hrun⟩ := ih h
    refine ⟨first ++ front, ?_, fun w => ?_⟩
    · rw [List.append_cons, hfirst, List.append_assoc, List.append_assoc, hfront]
    · rw [List.append_assoc, List.cons_append, hnext, ← List.append_assoc, hrun, map_behind]

/-- Where the scan of a prelude ends in a text, it does so whatever follows. -/
theorem scanPrelude_of_run_eq_none (h : Scanner.prelude.run (.plain false, 0) s = none) :
    ∃ front c back, s = front ++ c :: back ∧ endsPrelude c ∧
      ∀ w, scanPrelude .plain 0 (s ++ w) = .ok (front, c :: (back ++ w)) := by
  obtain ⟨front, c, back, slash, rfl, hrun, hc⟩ := Scanner.exists_of_run_eq_none h
  have hc : endsPrelude c := hc
  refine ⟨front, c, back, rfl, hc, fun w => ?_⟩
  obtain ⟨first, hfirst, htake⟩ := scanPrelude_run hrun
  have hslash : c ≠ '/' := by
    rintro rfl
    exact absurd hc (by decide)
  have hstar : c ≠ '*' := by
    rintro rfl
    exact absurd hc (by decide)
  have hescape : c ≠ '\\' := by
    rintro rfl
    exact absurd hc (by decide)
  have hend (w : List Char) : scanPrelude .plain 0 (c :: w) = .ok ([], c :: w) := by
    rw [scanPrelude]
    · simp [hc]
    · exact fun _ h => absurd h hslash
    · exact fun _ _ h => absurd h hescape
  have hahead : scanPrelude .plain 0 ((Cursor.plain slash).ahead ++ c :: (back ++ w)) =
      .ok ((Cursor.plain slash).ahead, c :: (back ++ w)) := by
    cases slash with
    | false => exact hend _
    | true =>
      change scanPrelude .plain 0 ('/' :: c :: (back ++ w)) = _
      rw [scanPrelude_plain (by decide) (by simp [hstar]) (by simp [endsPrelude])]
      change (scanPrelude .plain 0 (c :: (back ++ w))).map _ = _
      rw [hend]
      rfl
  have hwhole := htake (c :: (back ++ w))
  have hfront : front = first ++ (Cursor.plain slash).ahead := hfirst
  change scanPrelude .plain 0 (front ++ c :: (back ++ w)) =
    (scanPrelude .plain 0 ((Cursor.plain slash).ahead ++ c :: (back ++ w))).map _ at hwhole
  rw [List.append_assoc, List.cons_append, hwhole, hahead, hfront]
  rfl

end Prelude

section Strip

variable {p q : Cursor} {d e : Nat} {c : Char} {s : List Char}

theorem stripComments_plain (h : c = '/' → s.head? ≠ some '*') :
    stripComments .plain (c :: s) = c :: stripComments (Scan.enter c) s := by
  rw [stripComments]
  rintro t rfl rfl
  exact h rfl rfl

theorem stripComments_comment (h : c = '*' → s.head? ≠ some '/') :
    stripComments .comment (c :: s) = stripComments .comment s := by
  rw [stripComments]
  rintro t rfl rfl
  exact h rfl rfl

theorem stripComments_next_plain {slash : Bool} (hopen : (slash && c == '*') = false)
    (h : Scanner.strip.next (.plain slash, d) c = some (q, e)) :
    q.isEscaped = false ∧ ∃ front, ∀ s,
      stripComments .plain (c :: s) = front ++ stripComments q.scan (q.ahead ++ s) := by
  have hcomments : (Scanner.strip.comments && slash && c == '*') = false := hopen
  have hend : ¬ (d == 0 && Scanner.strip.ends c) := by simp [Scanner.strip]
  have hescape : ¬ (Scanner.strip.escapes && c == '\\') := by simp [Scanner.strip]
  rw [Scanner.next, hcomments, if_neg Bool.false_ne_true, if_neg hend, if_neg hescape] at h
  split at h
  · next hquote =>
    cases h
    have hslash : c ≠ '/' := by
      rintro rfl
      exact absurd hquote (by decide)
    refine ⟨rfl, [c], fun s => ?_⟩
    rw [stripComments_plain fun h => absurd h hslash, Scan.enter, if_pos hquote]
    rfl
  · next hquote =>
    by_cases hslash : c = '/'
    · subst hslash
      cases h
      exact ⟨rfl, [], fun s => rfl⟩
    · have hplain : (c == '/') = false := beq_eq_false_iff_ne.2 hslash
      rw [hplain] at h
      cases h
      refine ⟨rfl, [c], fun s => ?_⟩
      rw [stripComments_plain fun h => absurd h hslash, Scan.enter, if_neg hquote]
      rfl

theorem stripComments_next_comment (c : Char) (s : List Char) :
    stripComments .comment (c :: s) =
      stripComments .comment ((Cursor.comment (c == '*')).ahead ++ s) := by
  by_cases hc : c = '*'
  · subst hc
    rfl
  · rw [beq_eq_false_iff_ne.2 hc]
    exact stripComments_comment fun h => absurd h hc

private theorem stripComments_next_quoted {quote : Char}
    (h : Scanner.strip.next (.quoted quote, d) c = some (q, e)) :
    q.isEscaped = false ∧ ∃ front, ∀ s,
      stripComments (.quoted quote) (c :: s) = front ++ stripComments q.scan (q.ahead ++ s) := by
  have hescape : ¬ (Scanner.strip.escapes && c == '\\') := by simp [Scanner.strip]
  rw [Scanner.next, if_neg hescape] at h
  split at h
  · next hquote =>
    cases h
    refine ⟨rfl, [c], fun s => ?_⟩
    rw [stripComments, Scan.leave, if_pos hquote]
    rfl
  · next hquote =>
    cases h
    refine ⟨rfl, [c], fun s => ?_⟩
    rw [stripComments, Scan.leave, if_neg hquote]
    rfl

theorem stripComments_next (hp : p.isEscaped = false)
    (h : Scanner.strip.next (p, d) c = some (q, e)) :
    q.isEscaped = false ∧ ∃ front, ∀ s,
      stripComments p.scan (p.ahead ++ c :: s) = front ++ stripComments q.scan (q.ahead ++ s) := by
  cases p with
  | plain slash =>
    cases slash with
    | false => exact stripComments_next_plain (Bool.false_and _) h
    | true =>
      by_cases hc : c = '*'
      · subst hc
        cases h
        refine ⟨rfl, [], fun s => ?_⟩
        change stripComments .plain ('/' :: '*' :: s) = _
        rw [stripComments]
        rfl
      · obtain ⟨hq, front, htake⟩ := stripComments_next_plain (by simp [hc]) h
        refine ⟨hq, '/' :: front, fun s => ?_⟩
        change stripComments .plain ('/' :: c :: s) = _
        rw [stripComments_plain (by simp [hc])]
        exact congrArg (List.cons '/') (htake s)
  | quoted quote => exact stripComments_next_quoted h
  | escaped quote => cases hp
  | comment star =>
    by_cases hclose : star ∧ c = '/'
    · obtain ⟨rfl, rfl⟩ := hclose
      cases h
      refine ⟨rfl, [], fun s => ?_⟩
      change stripComments .comment ('*' :: '/' :: s) = _
      rw [stripComments]
      rfl
    · rw [Scanner.next_comment hclose] at h
      cases h
      refine ⟨rfl, [], fun s => ?_⟩
      cases star with
      | false => exact stripComments_next_comment c s
      | true =>
        have hslash : c ≠ '/' := fun hslash => hclose ⟨rfl, hslash⟩
        change stripComments .comment ('*' :: c :: s) = _
        rw [stripComments_comment (by simp [hslash])]
        exact stripComments_next_comment c s

theorem stripComments_run (hp : p.isEscaped = false)
    (h : Scanner.strip.run (p, d) s = some (q, e)) :
    q.isEscaped = false ∧ ∃ front, ∀ w,
      stripComments p.scan (p.ahead ++ s ++ w) = front ++ stripComments q.scan (q.ahead ++ w) := by
  induction s generalizing p d with
  | nil =>
    cases h
    exact ⟨hp, [], fun w => by rw [List.append_nil, List.nil_append]⟩
  | cons c s ih =>
    obtain ⟨⟨r, d'⟩, hr, h⟩ := Option.bind_eq_some_iff.1 h
    obtain ⟨hr, first, hnext⟩ := stripComments_next hp hr
    obtain ⟨hq, front, hrun⟩ := ih hr h
    refine ⟨hq, first ++ front, fun w => ?_⟩
    rw [List.append_assoc, List.cons_append, hnext, ← List.append_assoc, hrun, List.append_assoc]

/-- The removal of comments never ends in a text. -/
theorem exists_run_strip (p : Cursor × Nat) (s : List Char) :
    ∃ q, Scanner.strip.run p s = some q := by
  cases h : Scanner.strip.run p s with
  | some q => exact ⟨q, rfl⟩
  | none =>
    obtain ⟨-, c, -, -, -, -, hc⟩ := Scanner.exists_of_run_eq_none h
    cases hc

/-- Inside a quote or comment something of a comment's text is kept, once there is a slash in front
of it. -/
theorem stripComments_digit (hp : p.isPlain = false) (hescaped : p.isEscaped = false)
    (hquote : ∀ q, p.quote? = some q → isQuote q) :
    ∃ front q, ∀ c ∈ ['0', '1'], ∀ w,
      stripComments p.scan (p.ahead ++ '/' :: '*' :: '/' :: c :: w) =
        front ++ c :: stripComments q w := by
  cases p with
  | plain slash => cases hp
  | escaped quote => cases hescaped
  | quoted quote =>
    refine ⟨['/', '*', '/'], .quoted quote, fun c hc w => ?_⟩
    have hleave (c : Char) (hc : c ∈ ['/', '*', '0', '1']) : Scan.leave quote c = .quoted quote := by
      rw [Scan.leave]
      rcases isQuote_iff.1 (hquote quote rfl) with rfl | rfl <;> grind
    change stripComments (.quoted quote) ('/' :: '*' :: '/' :: c :: w) = _
    rw [stripComments, hleave '/' (by simp), stripComments, hleave '*' (by simp), stripComments,
      hleave '/' (by simp), stripComments, hleave c (List.mem_cons_of_mem _ (List.mem_cons_of_mem _ hc))]
    rfl
  | comment star =>
    cases star with
    | false =>
      refine ⟨[], .plain, fun c hc w => ?_⟩
      change stripComments .comment ('/' :: '*' :: '/' :: c :: w) = _
      rw [stripComments_comment (by simp), stripComments, stripComments_plain]
      · simp only [List.mem_cons, List.not_mem_nil, or_false] at hc
        rcases hc with rfl | rfl <;> rfl
      · rintro rfl
        simp at hc
    | true =>
      refine ⟨['*', '/'], .plain, fun c hc w => ?_⟩
      have hstar : c ≠ '*' ∧ c ≠ '/' := by
        simp only [List.mem_cons, List.not_mem_nil, or_false] at hc
        rcases hc with rfl | rfl <;> decide
      change stripComments .comment ('*' :: '/' :: '*' :: '/' :: c :: w) = _
      rw [stripComments, stripComments_plain (by simp)]
      change '*' :: stripComments .plain ('/' :: c :: w) = _
      rw [stripComments_plain (by simp [hstar.1])]
      change '*' :: '/' :: stripComments .plain (c :: w) = _
      rw [stripComments_plain fun h => absurd h hstar.2]
      simp only [List.mem_cons, List.not_mem_nil, or_false] at hc
      rcases hc with rfl | rfl <;> rfl

end Strip

section Value

variable {p q : Cursor} {d e : Nat} {c : Char} {s : List Char}

theorem scanValue_quoted {quote : Char} (hc : c ≠ '\\') : scanValue (some quote) d (c :: s) =
    behind [c] (scanValue (if c == quote then none else some quote) d s) := by
  rw [scanValue]
  · rfl
  · exact fun _ _ h => absurd h hc

theorem scanValue_plain (hc : c ≠ '\\') (hend : ¬ (d = 0 ∧ (c = ';' ∨ c = '}'))) :
    scanValue none d (c :: s) =
      behind [c] (scanValue (if isQuote c then some c else none) (valueDepth d c) s) := by
  rw [scanValue]
  · rw [if_neg (by simpa using hend)]
    rfl
  · exact fun _ _ h => absurd h hc

private theorem scanValue_next_plain {slash : Bool}
    (h : Scanner.value.next (.plain slash, d) c = some (q, e)) :
    q.isComment = false ∧ ∃ front, [c] = front ++ q.ahead ∧ ∀ s,
      scanValue none d (c :: s) = behind front (scanValue q.quote? e (q.ahead ++ s)) := by
  have hcomments : (Scanner.value.comments && slash && c == '*') = false := rfl
  rw [Scanner.next, hcomments, if_neg Bool.false_ne_true] at h
  split at h
  · cases h
  · next hend =>
    have hend : ¬ (d = 0 ∧ (c = ';' ∨ c = '}')) := by
      simpa [Scanner.value] using hend
    split at h
    · next hc =>
      obtain rfl : c = '\\' := by simpa [Scanner.value] using hc
      cases h
      exact ⟨rfl, [], rfl, fun s => rfl⟩
    · next hc =>
      have hc : c ≠ '\\' := by simpa [Scanner.value] using hc
      split at h
      · next hquote =>
        cases h
        have hdepth : valueDepth d c = d := by
          rcases isQuote_iff.1 hquote with rfl | rfl <;> rfl
        refine ⟨rfl, [c], rfl, fun s => ?_⟩
        rw [scanValue_plain hc hend, if_pos hquote, hdepth]
        rfl
      · next hquote =>
        by_cases hslash : c = '/'
        · subst hslash
          cases h
          exact ⟨rfl, [], rfl, fun s => rfl⟩
        · have hplain : (c == '/') = false := beq_eq_false_iff_ne.2 hslash
          rw [hplain] at h
          cases h
          refine ⟨rfl, [c], rfl, fun s => ?_⟩
          rw [scanValue_plain hc hend, if_neg hquote]
          rfl

theorem scanValue_next (hp : p.isComment = false)
    (h : Scanner.value.next (p, d) c = some (q, e)) :
    q.isComment = false ∧ ∃ front, p.ahead ++ [c] = front ++ q.ahead ∧ ∀ s,
      scanValue p.quote? d (p.ahead ++ c :: s) =
        behind front (scanValue q.quote? e (q.ahead ++ s)) := by
  cases p with
  | plain slash =>
    obtain ⟨hq, front, hfront, htake⟩ := scanValue_next_plain h
    cases slash with
    | false => exact ⟨hq, front, hfront, htake⟩
    | true =>
      refine ⟨hq, '/' :: front, congrArg (List.cons '/') hfront, fun s => ?_⟩
      change scanValue none d ('/' :: c :: s) = _
      rw [scanValue_plain (by decide) (by simp)]
      change behind ['/'] (scanValue none d (c :: s)) = _
      rw [htake, behind_behind]
      rfl
  | quoted quote =>
    rw [Scanner.next] at h
    by_cases hc : c = '\\'
    · subst hc
      cases h
      exact ⟨rfl, [], rfl, fun s => rfl⟩
    · rw [if_neg (by simp [hc])] at h
      split at h
      · next hquote =>
        cases h
        refine ⟨rfl, [c], rfl, fun s => ?_⟩
        change scanValue (some quote) d (c :: s) = _
        rw [scanValue_quoted hc, if_pos hquote]
        rfl
      · next hquote =>
        cases h
        refine ⟨rfl, [c], rfl, fun s => ?_⟩
        change scanValue (some quote) d (c :: s) = _
        rw [scanValue_quoted hc, if_neg hquote]
        rfl
  | escaped quote =>
    cases quote with
    | none =>
      cases h
      exact ⟨rfl, ['\\', c], rfl, fun s => rfl⟩
    | some quote =>
      cases h
      exact ⟨rfl, ['\\', c], rfl, fun s => rfl⟩
  | comment star => cases hp

theorem scanValue_run (hp : p.isComment = false)
    (h : Scanner.value.run (p, d) s = some (q, e)) :
    q.isComment = false ∧ ∃ front, p.ahead ++ s = front ++ q.ahead ∧ ∀ w,
      scanValue p.quote? d (p.ahead ++ s ++ w) =
        behind front (scanValue q.quote? e (q.ahead ++ w)) := by
  induction s generalizing p d with
  | nil =>
    cases h
    exact ⟨hp, [], List.append_nil _, fun w => by rw [List.append_nil, behind_nil]⟩
  | cons c s ih =>
    obtain ⟨⟨r, d'⟩, hr, h⟩ := Option.bind_eq_some_iff.1 h
    obtain ⟨hr, first, hfirst, hnext⟩ := scanValue_next hp hr
    obtain ⟨hq, front, hfront, hrun⟩ := ih hr h
    refine ⟨hq, first ++ front, ?_, fun w => ?_⟩
    · rw [List.append_cons, hfirst, List.append_assoc, List.append_assoc, hfront]
    · rw [List.append_assoc, List.cons_append, hnext, ← List.append_assoc, hrun, behind_behind]

/-- Where the scan of a value ends in a text, it does so whatever follows. -/
theorem scanValue_of_run_eq_none (h : Scanner.value.run (.plain false, 0) s = none) :
    ∃ front c back, s = front ++ c :: back ∧
      ∀ w, scanValue none 0 (s ++ w) = (front, c :: (back ++ w)) := by
  obtain ⟨front, c, back, slash, rfl, hrun, hc⟩ := Scanner.exists_of_run_eq_none h
  have hc : c = ';' ∨ c = '}' := by simpa [Scanner.value] using hc
  refine ⟨front, c, back, rfl, fun w => ?_⟩
  obtain ⟨-, first, hfirst, htake⟩ := scanValue_run rfl hrun
  have hend (w : List Char) : scanValue none 0 (c :: w) = ([], c :: w) := by
    rcases hc with rfl | rfl <;> simp [scanValue]
  have hahead : scanValue none 0 ((Cursor.plain slash).ahead ++ c :: (back ++ w)) =
      ((Cursor.plain slash).ahead, c :: (back ++ w)) := by
    cases slash with
    | false => exact hend _
    | true =>
      change scanValue none 0 ('/' :: c :: (back ++ w)) = _
      rw [scanValue_plain (by decide) (by simp)]
      change behind ['/'] (scanValue none 0 (c :: (back ++ w))) = _
      rw [hend]
      rfl
  have hwhole := htake (c :: (back ++ w))
  have hfront : front = first ++ (Cursor.plain slash).ahead := hfirst
  change scanValue none 0 (front ++ c :: (back ++ w)) =
    behind first (scanValue none 0 ((Cursor.plain slash).ahead ++ c :: (back ++ w))) at hwhole
  rw [List.append_assoc, List.cons_append, hwhole, hahead, hfront]
  rfl

end Value

end Chars

end UtilityCss
