import UtilityCss.Proofs.Stylesheet.Clean
import UtilityCss.Proofs.Stylesheet.Place
import UtilityCss.Proofs.Text.Nesting

/-!
# Scanners of stylesheets

A stylesheet's text is scanned by several functions, and each has its own idea of what a backslash, a
comment and a bracket is. A `Scanner` says what it minds, and a `Cursor` where it stands. That makes it
one question for all of them where a comment hides its text and where a text can break out of it.
-/

namespace UtilityCss

/-- Where a scanner stands in a text. -/
inductive Cursor where
  /-- Outside quotes and comments; `slash` says that a slash stands in front. -/
  | plain (slash : Bool)
  | quoted (quote : Char)
  /-- Behind a backslash, which takes the next character with it, inside a quote or outside. -/
  | escaped (quote : Option Char)
  /-- Inside a comment; `star` says that a star stands in front. -/
  | comment (star : Bool)
  deriving DecidableEq, Repr

/-- What a scanner minds besides quotes. -/
structure Scanner where
  escapes : Bool
  comments : Bool
  /-- The number of open brackets behind a character outside quotes and comments. -/
  depth : Nat → Char → Nat
  /-- The characters outside of brackets at which it ends. -/
  ends : Char → Bool
  /-- The signs of comments and the colon are neither brackets nor ends. -/
  isNeutral : ∀ c ∈ ['/', '*', ':'], ends c = false ∧ ∀ d, depth d c = d

namespace Cursor

/-- What of the text in front belongs to the next character. -/
def ahead : Cursor → List Char
  | plain true => ['/']
  | escaped _ => ['\\']
  | comment true => ['*']
  | _ => []

def scan : Cursor → Scan
  | plain _ | escaped none => .plain
  | quoted q | escaped (some q) => .quoted q
  | comment _ => .comment

def quote? : Cursor → Option Char
  | quoted q | escaped (some q) => some q
  | _ => none

def isPlain : Cursor → Bool
  | plain _ => true
  | _ => false

theorem exists_of_isPlain {p : Cursor} (h : p.isPlain) : ∃ slash, p = plain slash := by
  cases p with
  | plain slash => exact ⟨slash, rfl⟩
  | quoted q => cases h
  | escaped q => cases h
  | comment star => cases h

def isEscaped : Cursor → Bool
  | escaped _ => true
  | _ => false

def isComment : Cursor → Bool
  | comment _ => true
  | _ => false

end Cursor

namespace Scanner

def prelude : Scanner where
  escapes := true
  comments := true
  depth := Chars.bracketDepth
  ends := Chars.endsPrelude
  isNeutral := by simp [Chars.bracketDepth, Chars.endsPrelude]

def value : Scanner where
  escapes := true
  comments := false
  depth := Chars.valueDepth
  ends := fun c => c == ';' || c == '}'
  isNeutral := by simp [Chars.valueDepth, Chars.bracketDepth]

def strip : Scanner where
  escapes := false
  comments := true
  depth := fun d _ => d
  ends := fun _ => false
  isNeutral := by simp

/-- The scanner that minds quotes, escapes and comments, and no more. -/
def text : Scanner where
  escapes := true
  comments := true
  depth := fun d _ => d
  ends := fun _ => false
  isNeutral := by simp

/-- The place behind a character, unless the scanner ends there. -/
def next (m : Scanner) : Cursor × Nat → Char → Option (Cursor × Nat)
  | (.plain slash, d), c =>
    if m.comments && slash && c == '*' then some (.comment false, d)
    else if d == 0 && m.ends c then none
    else if m.escapes && c == '\\' then some (.escaped none, d)
    else if isQuote c then some (.quoted c, d)
    else some (.plain (c == '/'), m.depth d c)
  | (.quoted q, d), c =>
    if m.escapes && c == '\\' then some (.escaped (some q), d)
    else if c == q then some (.plain false, d)
    else some (.quoted q, d)
  | (.escaped none, d), _ => some (.plain false, d)
  | (.escaped (some q), d), _ => some (.quoted q, d)
  | (.comment star, d), c =>
    if star && c == '/' then some (.plain false, d) else some (.comment (c == '*'), d)

def run (m : Scanner) : Cursor × Nat → List Char → Option (Cursor × Nat)
  | p, [] => some p
  | p, c :: s => (m.next p c).bind fun q => m.run q s

section Run

variable {m : Scanner} {p q : Cursor × Nat} {c : Char} {s t : List Char} {d e : Nat}

@[simp]
theorem run_nil : m.run p [] = some p := rfl

theorem run_cons : m.run p (c :: s) = (m.next p c).bind fun q => m.run q s := rfl

theorem run_append : m.run p (s ++ t) = (m.run p s).bind fun q => m.run q t := by
  induction s generalizing p with
  | nil => rfl
  | cons c s ih =>
    rw [List.cons_append, run_cons, run_cons, Option.bind_assoc]
    congr 1
    funext q
    exact ih

theorem run_append_of (hs : m.run p s = some q) : m.run p (s ++ t) = m.run q t := by
  rw [run_append, hs]
  rfl

/-- A scanner stays in a comment behind any character that does not end it. -/
theorem next_comment {star : Bool} (hclose : ¬ (star ∧ c = '/')) (d : Nat) :
    m.next (.comment star, d) c = some (.comment (c == '*'), d) := by
  rw [next, if_neg (by simpa using hclose)]

theorem run_invariant {P : Cursor × Nat → Prop}
    (hstep : ∀ p c q, P p → m.next p c = some q → P q) (hp : P p) (h : m.run p s = some q) : P q := by
  induction s generalizing p with
  | nil =>
    cases h
    exact hp
  | cons c s ih =>
    obtain ⟨r, hr, h⟩ := Option.bind_eq_some_iff.1 h
    exact ih (hstep p c r hp hr) h

/-- A scanner that ends in a text does so outside of quotes, comments and brackets. -/
theorem exists_of_run_eq_none (h : m.run p s = none) : ∃ front c back slash,
    s = front ++ c :: back ∧ m.run p front = some (.plain slash, 0) ∧ m.ends c := by
  induction s generalizing p with
  | nil => cases h
  | cons c s ih =>
    rw [run_cons] at h
    cases hnext : m.next p c with
    | none =>
      obtain ⟨cursor, d⟩ := p
      have hend : ∃ slash, cursor = .plain slash ∧ d = 0 ∧ m.ends c := by
        unfold next at hnext
        split at hnext <;> grind
      obtain ⟨slash, rfl, rfl, hc⟩ := hend
      exact ⟨[], c, s, slash, rfl, rfl, hc⟩
    | some q =>
      rw [hnext] at h
      obtain ⟨front, c', back, slash, rfl, hrun, hc⟩ := ih h
      refine ⟨c :: front, c', back, slash, rfl, ?_, hc⟩
      rw [run_cons, hnext]
      exact hrun

theorem run_comment (h : Chars.cutPhrase "*/".toList s = none) (d : Nat) :
    ∃ star, m.run (.comment false, d) s = some (.comment star, d) := by
  have hgeneral : ∀ star : Bool, (star → s.head? ≠ some '/') →
      ∃ star', m.run (.comment star, d) s = some (.comment star', d) := by
    induction s with
    | nil => exact fun star _ => ⟨star, rfl⟩
    | cons c s ih =>
      intro star hstar
      obtain ⟨hopen, hs⟩ := Chars.cutPhrase_close_cons.1 h
      have hclose : ¬ (star ∧ c = '/') := by
        rintro ⟨hbehind, rfl⟩
        exact hstar hbehind rfl
      rw [run_cons, next_comment hclose]
      exact ih hs _ fun hc hslash => hopen ⟨eq_of_beq hc, hslash⟩
  exact hgeneral false (by simp)

end Run

section Comment

variable {m : Scanner} {c : Char} {t : List Char} {d : Nat} {p : Cursor}

theorem next_neutral (hc : c ∈ ['/', '*', ':']) (slash : Bool) (d : Nat)
    (hopen : (m.comments && slash && c == '*') = false) :
    m.next (.plain slash, d) c = some (.plain (c == '/'), d) := by
  obtain ⟨hend, hdepth⟩ := m.isNeutral c hc
  have hother : (m.escapes && c == '\\') = false ∧ isQuote c = false := by
    simp only [List.mem_cons, List.not_mem_nil, or_false] at hc
    rcases hc with rfl | rfl | rfl <;> simp [isQuote]
  rw [next, hopen, hend, hother.1, hother.2, hdepth]
  simp

/-- Outside of quotes, escapes and comments a comment hides its text from a scanner that minds
comments. -/
theorem run_commented (hm : m.comments) (slash : Bool) (d : Nat)
    (ht : Chars.cutPhrase "*/".toList t = none) :
    m.run (.plain slash, d) ('/' :: '*' :: (t ++ ['*', '/'])) = some (.plain false, d) := by
  obtain ⟨star, hrun⟩ := run_comment (m := m) ht d
  have hslash : m.next (.plain slash, d) '/' = some (.plain true, d) :=
    next_neutral (by simp) slash d (by simp)
  have hopen : m.next (.plain true, d) '*' = some (.comment false, d) := by
    simp [next, hm]
  have hclose : m.run (.comment star, d) ['*', '/'] = some (.plain false, d) := by
    simp [run_cons, next]
  rw [run_cons, hslash, Option.bind_some, run_cons, hopen, Option.bind_some, run_append_of hrun,
    hclose]

def Closes (m : Scanner) : Prop := m.ends ')' = false ∧ ∀ d, m.depth d ')' = d - 1

theorem run_closing (hm : m.Closes) (slash : Bool) (d : Nat) :
    m.run (.plain slash, d) (List.replicate d ')' ++ [':']) = some (.plain false, 0) := by
  induction d generalizing slash with
  | zero =>
    rw [List.replicate_zero, List.nil_append, run_cons, next_neutral (by simp) slash 0 (by simp)]
    rfl
  | succ d ih =>
    have hnext : m.next (.plain slash, d + 1) ')' = some (.plain false, d) := by
      simp [next, hm.1, hm.2, isQuote]
    rw [List.replicate_succ, List.cons_append, run_cons, hnext, Option.bind_some, ih]

/-- Only quotes are taken for quotes. -/
theorem isQuote_of_run {s : List Char} {e : Nat} {q : Char}
    (h : m.run (.plain false, 0) s = some (p, e)) (hq : p.quote? = some q) : isQuote q := by
  refine run_invariant (P := fun p => ∀ q, p.1.quote? = some q → isQuote q) ?_ ?_ h q hq
  · intro p c r hp hnext q hq
    unfold next at hnext
    split at hnext <;> grind [Cursor.quote?]
  · intro q hq
    cases hq

private theorem run_breakout_quoted (hm : m.Closes) {quote : Char} (hquote : isQuote quote)
    (d : Nat) :
    m.run (.quoted quote, d) ('/' :: '*' :: (quote :: List.replicate d ')' ++ [':'])) =
      some (.plain false, 0) := by
  have hchars : quote ≠ '/' ∧ quote ≠ '*' ∧ quote ≠ '\\' := by
    rcases isQuote_iff.1 hquote with rfl | rfl <;> decide
  have hslash : m.next (.quoted quote, d) '/' = some (.quoted quote, d) := by
    simp [next, hchars.1.symm]
  have hstar : m.next (.quoted quote, d) '*' = some (.quoted quote, d) := by
    simp [next, hchars.2.1.symm]
  have hclose : m.next (.quoted quote, d) quote = some (.plain false, d) := by
    simp [next, hchars.2.2]
  rw [run_cons, hslash, Option.bind_some, run_cons, hstar, Option.bind_some, List.cons_append,
    run_cons, hclose, Option.bind_some, run_closing hm]

private theorem run_breakout_comment (hm : m.Closes) (star : Bool) (d : Nat) :
    m.run (.comment star, d) ('/' :: '*' :: ('/' :: List.replicate d ')' ++ [':'])) =
      some (.plain false, 0) := by
  cases star with
  | false =>
    have hopen : m.run (.comment false, d) ['/', '*', '/'] = some (.plain false, d) := by
      simp [run_cons, next]
    have htext : '/' :: '*' :: ('/' :: List.replicate d ')' ++ [':']) =
        ['/', '*', '/'] ++ (List.replicate d ')' ++ [':']) := rfl
    rw [htext, run_append_of hopen, run_closing hm]
  | true =>
    have hend : m.next (.comment true, d) '/' = some (.plain false, d) := rfl
    have hstar : m.next (.plain false, d) '*' = some (.plain false, d) :=
      next_neutral (by simp) false d (by simp)
    have hslash : m.next (.plain false, d) '/' = some (.plain true, d) :=
      next_neutral (by simp) false d (by simp)
    rw [run_cons, hend, Option.bind_some, run_cons, hstar, Option.bind_some, List.cons_append,
      run_cons, hslash, Option.bind_some, run_closing hm]

/-- Elsewhere the text of a comment can end what is open: with a quote or a slash, closing brackets
and a colon in it the scanner stands outside of all of them. -/
theorem exists_run_breakout (hm : m.Closes) (hquote : ∀ q, p.quote? = some q → isQuote q)
    (hplain : m.comments → p.isPlain = false) (d : Nat) :
    ∃ t, '*' ∉ t ∧ m.run (p, d) ('/' :: '*' :: (t ++ [':'])) = some (.plain false, 0) := by
  have hbrackets : '*' ∉ List.replicate d ')' := by simp [List.mem_replicate]
  have hfree {c : Char} (hc : c ≠ '*') : '*' ∉ c :: List.replicate d ')' :=
    List.not_mem_cons_of_ne_of_not_mem hc.symm hbrackets
  have hstar {q : Char} (hq : isQuote q) : q ≠ '*' := by
    rintro rfl
    exact absurd hq (by decide)
  cases p with
  | plain slash =>
    have hnone : m.comments = false := by
      cases hcomments : m.comments with
      | false => rfl
      | true => cases hplain hcomments
    refine ⟨List.replicate d ')', hbrackets, ?_⟩
    have hslash : m.next (.plain slash, d) '/' = some (.plain true, d) :=
      next_neutral (by simp) slash d (by simp)
    have hnext : m.next (.plain true, d) '*' = some (.plain false, d) :=
      next_neutral (by simp) true d (by simp [hnone])
    rw [run_cons, hslash, Option.bind_some, run_cons, hnext, Option.bind_some, run_closing hm]
  | quoted q =>
    have hq := hquote q rfl
    exact ⟨q :: List.replicate d ')', hfree (hstar hq), run_breakout_quoted hm hq d⟩
  | escaped quote =>
    cases quote with
    | none =>
      refine ⟨List.replicate d ')', hbrackets, ?_⟩
      have hslash : m.next (.escaped none, d) '/' = some (.plain false, d) := rfl
      have hnext : m.next (.plain false, d) '*' = some (.plain false, d) :=
        next_neutral (by simp) false d (by simp)
      rw [run_cons, hslash, Option.bind_some, run_cons, hnext, Option.bind_some, run_closing hm]
    | some q =>
      -- the slash is escaped, and would do nothing without the backslash either
      have hq := hquote q rfl
      have hslash : m.next (.escaped (some q), d) '/' = m.next (.quoted q, d) '/' := by
        have hne : q ≠ '/' := by
          rintro rfl
          exact absurd hq (by decide)
        simp [next, hne.symm]
      refine ⟨q :: List.replicate d ')', hfree (hstar hq), ?_⟩
      rw [run_cons, hslash]
      exact run_breakout_quoted hm hq d
  | comment star =>
    exact ⟨'/' :: List.replicate d ')', hfree (by decide), run_breakout_comment hm star d⟩

end Comment

end Scanner

end UtilityCss
