import UtilityCss.Stylesheet.Prelude

/-!
# Places of a scan

`Place.run` follows the scan of a stylesheet through a text. It fails where the scan would end, at a
comment, and, in a text that is to stand inside others, where something reaches outside of it. Where
it does not fail, `scanPrelude_run` says that the scan takes the text as it is.
-/

namespace UtilityCss

/-- Where the scan of a text stands, with the number of open brackets. -/
inductive Place where
  /-- Outside quotes; `slash` says that a slash stands in front. -/
  | plain (depth : Nat) (slash : Bool)
  | quoted (quote : Char) (depth : Nat)
  /-- Behind a backslash, which takes the next character with it, inside a quote or outside. -/
  | escaped (quote : Option Char) (depth : Nat)
  deriving DecidableEq, Repr

/-- What is asked of a text that a scan passes over. -/
inductive TextKind where
  /-- It stands by itself. Closing brackets without an opening one are ignored there. -/
  | whole
  /-- It may stand inside brackets. -/
  | part
  /-- It may also be split at its commas and get something in the place of `&`. -/
  | selector
  deriving DecidableEq, Repr

namespace TextKind

/-- Closing brackets without an opening one are refused. -/
def isNested (k : TextKind) : Bool := k != whole

/-- Refused are a slash in front of `&`, since with `*` in that place it would open a comment, and
an escaped blank outside brackets, since trimming could take it away from its backslash. -/
def isSelector (k : TextKind) : Bool := k == selector

end TextKind

namespace Chars

variable {q c : Char} {d : Nat} {s : List Char}

def behind (front : List Char) (p : List Char × List Char) : List Char × List Char :=
  (front ++ p.1, p.2)

@[simp]
theorem behind_nil (p : List Char × List Char) : behind [] p = p := rfl

@[simp]
theorem behind_behind (s t : List Char) (p : List Char × List Char) :
    behind s (behind t p) = behind (s ++ t) p := by
  rw [behind, behind, behind, List.append_assoc]

theorem map_behind (s t : List Char) (e : Except SyntaxError (List Char × List Char)) :
    (e.map (behind t)).map (behind s) = e.map (behind (s ++ t)) := by
  cases e with
  | error _ => rfl
  | ok p => exact congrArg Except.ok (behind_behind s t p)

theorem map_behind_nil (e : Except SyntaxError (List Char × List Char)) :
    e.map (behind []) = e := by
  cases e <;> rfl

theorem scanPrelude_escape (st : Scan) (hst : st ≠ .comment) :
    scanPrelude st d ('\\' :: c :: s) = (scanPrelude st d s).map (before '\\' ∘ before c) := by
  rw [scanPrelude]
  exact hst

theorem scanPrelude_quoted (hc : c ≠ '\\') :
    scanPrelude (.quoted q) d (c :: s) = (scanPrelude (Scan.leave q c) d s).map (before c) := by
  rw [scanPrelude]
  exact fun _ _ h _ => hc h

theorem scanPrelude_plain (hc : c ≠ '\\') (hcomment : c = '/' → s.head? ≠ some '*')
    (hend : ¬ (d = 0 ∧ endsPrelude c)) :
    scanPrelude .plain d (c :: s) =
      (scanPrelude (Scan.enter c) (bracketDepth d c) s).map (before c) := by
  rw [scanPrelude]
  · simp_all
  · grind
  · grind

end Chars

namespace Place

/-- The place behind a character, unless the text is refused. -/
def next (k : TextKind) : Place → Char → Option Place
  | escaped none d, c =>
    if k.isSelector && d == 0 && isBlank c then none else some (plain d false)
  | escaped (some q) d, _ => some (quoted q d)
  | quoted q d, c =>
    if c == '\\' then some (escaped (some q) d)
    else if c == q then some (plain d false) else some (quoted q d)
  | plain d slash, c =>
    if c == '\\' then some (escaped none d)
    else if isQuote c then some (quoted c d)
    else if c == '(' || c == '[' then some (plain (d + 1) false)
    else if c == ')' || c == ']' then
      if k.isNested && d == 0 then none else some (plain (d - 1) false)
    else if d == 0 && Chars.endsPrelude c then none
    else if slash && (c == '*' || (k.isSelector && c == '&')) then none
    else some (plain d (c == '/'))

def run (k : TextKind) : Place → List Char → Option Place
  | p, [] => some p
  | p, c :: s => (p.next k c).bind fun q => q.run k s

/-- What of the text in front belongs to the next character. -/
def ahead : Place → List Char
  | escaped _ _ => ['\\']
  | _ => []

def scan : Place → Scan
  | plain _ _ | escaped none _ => .plain
  | quoted q _ | escaped (some q) _ => .quoted q

def depth : Place → Nat
  | plain d _ | quoted _ d | escaped _ d => d

def deepen (n : Nat) : Place → Place
  | plain d slash => plain (d + n) slash
  | quoted q d => quoted q (d + n)
  | escaped q d => escaped q (d + n)

variable {k : TextKind} {p q : Place} {c : Char} {s t : List Char}

@[simp]
theorem run_nil : p.run k [] = some p := rfl

theorem run_cons : p.run k (c :: s) = (p.next k c).bind fun q => q.run k s := rfl

theorem run_append : p.run k (s ++ t) = (p.run k s).bind fun q => q.run k t := by
  induction s generalizing p with
  | nil => rfl
  | cons c s ih =>
    rw [List.cons_append, run_cons, run_cons, Option.bind_assoc]
    congr 1
    funext q
    exact ih

theorem run_append_of (hs : p.run k s = some q) : p.run k (s ++ t) = q.run k t := by
  rw [run_append, hs]
  rfl

theorem next_weaken {k' : TextKind} (hn : k'.isNested → k.isNested)
    (hs : k'.isSelector → k.isSelector) (h : p.next k c = some q) : p.next k' c = some q := by
  cases p with
  | escaped quote d =>
    cases quote <;> grind [next]
  | quoted => exact h
  | plain => grind [next]

theorem run_weaken {k' : TextKind} (hn : k'.isNested → k.isNested)
    (hs : k'.isSelector → k.isSelector) (h : p.run k s = some q) : p.run k' s = some q := by
  induction s generalizing p with
  | nil => exact h
  | cons c s ih =>
    obtain ⟨r, hr, h⟩ := Option.bind_eq_some_iff.1 h
    rw [run_cons, next_weaken hn hs hr]
    exact ih h

theorem next_deepen (hk : k.isNested) (n : Nat) (h : p.next k c = some q) :
    (p.deepen n).next k c = some (q.deepen n) := by
  cases p with
  | escaped quote d =>
    cases quote <;> grind [next, deepen]
  | quoted => grind [next, deepen]
  | plain d slash =>
    have hsub : d ≠ 0 → d + n - 1 = d - 1 + n := by omega
    have hadd : d + n + 1 = d + 1 + n := by omega
    grind [next, deepen]

theorem run_deepen (hk : k.isNested) (n : Nat) (h : p.run k s = some q) :
    (p.deepen n).run k s = some (q.deepen n) := by
  induction s generalizing p with
  | nil =>
    cases h
    rfl
  | cons c s ih =>
    obtain ⟨r, hr, h⟩ := Option.bind_eq_some_iff.1 h
    rw [run_cons, next_deepen hk n hr]
    exact ih h

theorem next_quoted {quote : Char} {d : Nat} (hc : c ≠ '\\')
    (h : (quoted quote d).next k c = some q) :
    q.scan = Scan.leave quote c ∧ q.depth = d ∧ q.ahead = [] := by
  rw [next, if_neg (by simpa using hc)] at h
  rw [Scan.leave]
  split at h
  all_goals
    cases h
    simp_all [scan, depth, ahead]

theorem next_plain {d : Nat} {slash : Bool} (hc : c ≠ '\\')
    (h : (plain d slash).next k c = some q) :
    q.scan = Scan.enter c ∧ q.depth = Chars.bracketDepth d c ∧ q.ahead = [] ∧
      ¬ (d = 0 ∧ Chars.endsPrelude c) ∧ (c = '/' → q = plain d true) := by
  rw [next, if_neg (by simpa using hc)] at h
  rw [Scan.enter, Chars.bracketDepth]
  split at h
  · cases h
    grind [isQuote, Chars.endsPrelude, scan, depth, ahead]
  · split at h
    · cases h
      grind [Chars.endsPrelude, scan, depth, ahead]
    · split at h
      · split at h
        · cases h
        · cases h
          grind [Chars.endsPrelude, scan, depth, ahead]
      · split at h
        · cases h
        · split at h
          · cases h
          · cases h
            grind [scan, depth, ahead]

/-- The first character of a text that passes does not open a comment. -/
theorem head?_ne_of_run {d : Nat} (h : (plain d true).run k s = some q) : s.head? ≠ some '*' := by
  cases s with
  | nil => nofun
  | cons c s =>
    intro hc
    obtain rfl := Option.some.inj hc
    obtain ⟨r, hr, -⟩ := Option.bind_eq_some_iff.1 h
    simp [next, isQuote] at hr

/-- The scan takes a character that passes to the place behind it. -/
private theorem scanPrelude_next (rest : List Char) (h : p.next k c = some q)
    (hrest : q = plain q.depth true → rest.head? ≠ some '*') :
    ∃ front, p.ahead ++ [c] = front ++ q.ahead ∧
      Chars.scanPrelude p.scan p.depth (p.ahead ++ c :: rest) =
        (Chars.scanPrelude q.scan q.depth (q.ahead ++ rest)).map (Chars.behind front) := by
  cases p with
  | escaped quote d =>
    refine ⟨['\\', c], ?_⟩
    cases quote with
    | none =>
      obtain rfl : q = plain d false := by grind [next]
      exact ⟨rfl, Chars.scanPrelude_escape .plain nofun⟩
    | some quote =>
      obtain rfl : q = quoted quote d := by grind [next]
      exact ⟨rfl, Chars.scanPrelude_escape (.quoted quote) nofun⟩
  | quoted quote d =>
    by_cases hc : c = '\\'
    · subst hc
      obtain rfl : q = escaped (some quote) d := by grind [next]
      exact ⟨[], rfl, (Chars.map_behind_nil _).symm⟩
    · obtain ⟨hscan, hdepth, hahead⟩ := next_quoted hc h
      rw [hahead, hscan, hdepth]
      exact ⟨[c], rfl, Chars.scanPrelude_quoted hc⟩
  | plain d slash =>
    by_cases hc : c = '\\'
    · subst hc
      obtain rfl : q = escaped none d := by grind [next]
      exact ⟨[], rfl, (Chars.map_behind_nil _).symm⟩
    · obtain ⟨hscan, hdepth, hahead, hend, hslash⟩ := next_plain hc h
      have hcomment : c = '/' → rest.head? ≠ some '*' := fun hc =>
        hrest (by rw [hdepth, hslash hc, hc]; rfl)
      rw [hahead, hscan, hdepth]
      exact ⟨[c], rfl, Chars.scanPrelude_plain hc hcomment hend⟩

/-- The scan takes a text that passes to the place where it ends. -/
theorem scanPrelude_run (rest : List Char) (h : p.run k s = some q) (hq : q.ahead = [])
    (hrest : q = plain q.depth true → rest.head? ≠ some '*') :
    Chars.scanPrelude p.scan p.depth (p.ahead ++ s ++ rest) =
      (Chars.scanPrelude q.scan q.depth rest).map (Chars.behind (p.ahead ++ s)) := by
  induction s generalizing p with
  | nil =>
    cases h
    rw [List.append_nil, hq, List.nil_append, Chars.map_behind_nil]
  | cons c s ih =>
    obtain ⟨r, hr, h⟩ := Option.bind_eq_some_iff.1 h
    have hnext : r = plain r.depth true → (s ++ rest).head? ≠ some '*' := by
      intro hslash
      cases s with
      | nil =>
        cases h
        exact hrest hslash
      | cons c' s =>
        rw [hslash] at h
        rw [List.cons_append, List.head?_cons]
        exact head?_ne_of_run h
    obtain ⟨front, hfront, htake⟩ := scanPrelude_next (s ++ rest) hr hnext
    rw [List.append_assoc, List.cons_append, htake, ← List.append_assoc, ih h, Chars.map_behind,
      List.append_cons, hfront, List.append_assoc]

/-- A slash matters only to a character that follows it. -/
theorem run_slash {d : Nat} {slash : Bool} (hs : s ≠ []) (hlead : s.head? ≠ some '*')
    (hlead' : s.head? ≠ some '&') : (plain d slash).run k s = (plain d false).run k s := by
  cases s with
  | nil => exact absurd rfl hs
  | cons c s =>
    have hc : c ≠ '*' := fun h => hlead (congrArg some h)
    have hc' : c ≠ '&' := fun h => hlead' (congrArg some h)
    rw [run_cons, run_cons, next, next]
    simp [hc, hc']

end Place

end UtilityCss
