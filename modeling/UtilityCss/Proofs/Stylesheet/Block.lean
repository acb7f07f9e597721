import UtilityCss.Proofs.Stylesheet.Passage
import UtilityCss.Proofs.Text.Nesting

/-!
# Values that hold blocks

The value of a custom property may hold blocks in braces. A first scan stops at the first of them,
and a second one, to which braces are brackets like others, reads the declaration to its end. Both
keep step with the check that brackets and quotes are closed.
-/

namespace UtilityCss

namespace Nesting

/-- The place of a scan at which the same quote and brackets are open. -/
def place (n : Nesting) (slash : Bool) : Place :=
  match n.quote with
  | some q => .quoted q n.closers.length
  | none => .plain n.closers.length slash

/-- The number of open brackets without the braces. -/
def bracketCount (n : Nesting) : Nat := n.closers.countP (· != '\x7d')

/-- The place of a scan to which braces are no brackets. -/
def outerPlace (n : Nesting) (slash : Bool) : Place :=
  match n.quote with
  | some q => .quoted q n.bracketCount
  | none => .plain n.bracketCount slash

def BracesInside (n : Nesting) : Prop := n.closers.getLast? ≠ some '\x7d'

theorem bracketCount_ne_zero {n : Nesting} (h : n.BracesInside) (hne : n.closers ≠ []) :
    n.bracketCount ≠ 0 := by
  refine Nat.pos_iff_ne_zero.1 (List.countP_pos_iff.2 ?_)
  refine ⟨n.closers.getLast hne, List.getLast_mem hne, ?_⟩
  rw [bne_iff_ne]
  intro hlast
  exact h (by rw [List.getLast?_eq_some_getLast hne, hlast])

theorem bracesInside_cons {quote quote' : Option Char} {d : Char} {closers : List Char} :
    BracesInside ⟨quote, d :: closers⟩ ↔
      (closers = [] → d ≠ '\x7d') ∧ (closers ≠ [] → BracesInside ⟨quote', closers⟩) := by
  cases closers with
  | nil => simp [BracesInside]
  | cons e closers => simp [BracesInside]

end Nesting

namespace Chars

def bracketed (c : Char) : Char := if c == '\x7b' then '[' else if c == '\x7d' then ']' else c

/-- What is asked of a value that holds blocks: its brackets and quotes are closed, and a scan to
which braces are brackets passes over it. -/
def HoldsBlocks (s : List Char) : Prop := isBalanced s ∧ Passes .whole (s.map bracketed)

instance {s : List Char} : Decidable (HoldsBlocks s) :=
  inferInstanceAs (Decidable (_ ∧ _))

section Step

variable {k : TextKind} {n m : Nesting} {s : List Char} {c : Char} {slash : Bool} {p : Place}

theorem place_of_next (hq : ∀ q ∈ n.quote, isQuote q) (hc : c ≠ '\\') (h : n.next? c = some m)
    (hp : (n.place slash).next .whole (bracketed c) = some p) :
    p = m.place (n.quote.isNone && c == '/') := by
  obtain ⟨quote, closers⟩ := n
  cases quote with
  | some q =>
    obtain rfl := next?_quoted h
    have hquote : isQuote q := hq q rfl
    have hkeep : (bracketed c == '\\') = false ∧ (bracketed c == q) = (c == q) := by
      grind [bracketed, isQuote]
    simp only [Nesting.place, Place.next, hkeep.1, hkeep.2] at hp
    by_cases hcq : c == q
    · simp_all [Nesting.place]
    · simp_all [Nesting.place]
  | none =>
    rcases next?_cases h with ⟨hquote, rfl⟩ | ⟨hopen, d, -, rfl⟩ | ⟨rfl, rfl⟩ |
      ⟨hclose, tail, rfl, rfl⟩ | ⟨hquote, hmeans, rfl⟩
    · have hkeep : bracketed c = c := by grind [bracketed, isQuote]
      simp [Nesting.place, Place.next, hkeep, hc, hquote] at hp
      simp [Nesting.place, ← hp]
    · rcases hopen with rfl | rfl <;> exact (Option.some.inj hp).symm
    · exact (Option.some.inj hp).symm
    · rcases hclose with rfl | rfl | rfl <;> exact (Option.some.inj hp).symm
    · have hkeep : bracketed c = c := by grind [bracketed]
      simp only [List.mem_cons, List.not_mem_nil, or_false, not_or] at hmeans
      simp only [Nesting.place, Place.next, hkeep, hquote] at hp ⊢
      grind

/-- A scan to which braces are brackets does not pass over a semicolon outside of them. -/
theorem not_semicolon_of_next (hp : (n.place slash).next .whole (bracketed c) = some p) :
    ¬ (n.isTop ∧ c = ';') := by
  rintro ⟨htop, rfl⟩
  obtain rfl := eq_of_isTop htop
  cases hp

theorem ne_backslash_of_isTame (hc : isTame c) : c ≠ '\\' := by
  rintro rfl
  exact absurd hc (by decide)

/-- A tame character opens and closes nothing. -/
theorem next?_tame (hc : isTame c) : Nesting.next? {} c = some {} := by
  simp only [isTame, special, Bool.not_eq_true', ← Bool.not_eq_true, List.contains_iff_mem,
    List.mem_cons, List.not_mem_nil, or_false, not_or] at hc
  have hcloser : isCloser c = false := by grind [isCloser]
  rw [Nesting.next?, hcloser, next_of_notMem (by simp [hc])]
  rfl

/-- The scan of a custom property keeps step with the check of brackets. -/
theorem scanValue_of_next (hc : c ≠ '\\') (h : n.next? c = some m) (hend : ¬ (n.isTop ∧ c = ';')) :
    scanValue n.quote n.closers.length (c :: s) =
      before c (scanValue m.quote m.closers.length s) := by
  obtain ⟨quote, closers⟩ := n
  cases quote with
  | some q =>
    obtain rfl := next?_quoted h
    rw [scanValue]
    exact fun _ _ h _ => hc h
  | none =>
    have hclosed : ¬ (closers.length = 0 ∧ c = '\x7d') := by
      rintro ⟨hnil, rfl⟩
      rw [List.length_eq_zero_iff.1 hnil] at h
      cases h
    have hstay : (closers.length == 0 && (c == ';' || c == '\x7d')) = false := by
      simp [Nesting.isTop] at hend
      grind
    have hstep : scanValue none closers.length (c :: s) =
        before c (scanValue (if isQuote c then some c else none) (valueDepth closers.length c) s) := by
      rw [scanValue]
      · rw [hstay]
        rfl
      · exact fun _ _ h _ => hc h
    rw [hstep]
    rcases next?_cases h with ⟨hquote, rfl⟩ | ⟨hopen, d, -, rfl⟩ | ⟨rfl, rfl⟩ |
      ⟨hclose, tail, rfl, rfl⟩ | ⟨hquote, hmeans, rfl⟩
    · have hdepth : valueDepth closers.length c = closers.length := by
        grind [valueDepth, bracketDepth, isQuote]
      rw [if_pos hquote, hdepth]
    · rcases hopen with rfl | rfl <;> rfl
    · rfl
    · rcases hclose with rfl | rfl | rfl <;> rfl
    · have hdepth : valueDepth closers.length c = closers.length := by
        simp only [List.mem_cons, List.not_mem_nil, or_false, not_or] at hmeans
        simp [valueDepth, bracketDepth, hmeans]
      rw [hdepth, hquote]
      rfl

theorem not_comment_of_next (hquote : n.quote = none) (hslash : slash)
    (hp : (n.place slash).next .whole (bracketed c) = some p) : c ≠ '*' := by
  rintro rfl
  obtain ⟨quote, closers⟩ := n
  subst hquote hslash
  simp [Nesting.place, Place.next, bracketed, isQuote, endsPrelude] at hp

theorem outerPlace_of_open {closers : List Char} {d : Char} (hopen : c = '(' ∨ c = '[')
    (hd : d ≠ '\x7d') (hinside : Nesting.BracesInside ⟨none, closers⟩) :
    (Nesting.outerPlace ⟨none, closers⟩ slash).next k c =
        some (Nesting.outerPlace ⟨none, d :: closers⟩ (Option.isNone (none : Option Char) && c == '/')) ∧
      Nesting.BracesInside ⟨none, d :: closers⟩ := by
  refine ⟨?_, Nesting.bracesInside_cons.2 ⟨fun _ => hd, fun _ => hinside⟩⟩
  have hcount : Nesting.bracketCount ⟨none, d :: closers⟩ =
      Nesting.bracketCount ⟨none, closers⟩ + 1 :=
    List.countP_cons_of_pos (bne_iff_ne.2 hd)
  rcases hopen with rfl | rfl <;> simp [Nesting.outerPlace, Place.next, isQuote, hcount]

/-- A closing bracket is counted, and a closing brace is none. -/
theorem outerPlace_of_close {tail : List Char} (hclose : c = ')' ∨ c = ']' ∨ c = '\x7d')
    (hinside : Nesting.BracesInside ⟨none, c :: tail⟩) :
    (Nesting.outerPlace ⟨none, c :: tail⟩ slash).next k c =
        some (Nesting.outerPlace ⟨none, tail⟩ (Option.isNone (none : Option Char) && c == '/')) ∧
      Nesting.BracesInside ⟨none, tail⟩ := by
  have hinside' : Nesting.BracesInside ⟨none, tail⟩ := by
    by_cases hnil : tail = []
    · subst hnil
      simp [Nesting.BracesInside]
    · exact (Nesting.bracesInside_cons.1 hinside).2 hnil
  refine ⟨?_, hinside'⟩
  have hpos := Nesting.bracketCount_ne_zero hinside (List.cons_ne_nil c tail)
  have hcount : Nesting.bracketCount ⟨none, c :: tail⟩ =
      Nesting.bracketCount ⟨none, tail⟩ + if c != '\x7d' then 1 else 0 := List.countP_cons ..
  rcases hclose with rfl | rfl | rfl
  · simp [Nesting.outerPlace, Place.next, isQuote, hcount]
  · simp [Nesting.outerPlace, Place.next, isQuote, hcount]
  · have hzero : Nesting.bracketCount ⟨none, tail⟩ ≠ 0 := by simpa [hcount] using hpos
    simp [Nesting.outerPlace, Place.next, isQuote, hcount, hzero]

/-- The scan to which braces are none keeps step with the check of brackets as well, up to the first
brace or semicolon outside of brackets and to the first comment. -/
theorem outerPlace_of_next (hc : c ≠ '\\') (h : n.next? c = some m) (hinside : n.BracesInside)
    (htop : n.isTop → c ≠ '\x7b' ∧ c ≠ ';')
    (hcomment : n.quote = none → slash → c ≠ '*' ∧ (k.isSelector → c ≠ '&')) :
    (n.outerPlace slash).next k c = some (m.outerPlace (n.quote.isNone && c == '/')) ∧
      m.BracesInside := by
  obtain ⟨quote, closers⟩ := n
  cases quote with
  | some q =>
    obtain rfl := next?_quoted h
    refine ⟨?_, hinside⟩
    by_cases hcq : c == q <;>
      simp [Nesting.outerPlace, Nesting.bracketCount, Place.next, hc, hcq]
  | none =>
    rcases next?_cases h with ⟨hquote, rfl⟩ | ⟨hopen, d, hd, rfl⟩ | ⟨rfl, rfl⟩ |
      ⟨hclose, tail, rfl, rfl⟩ | ⟨hquote, hmeans, rfl⟩
    · refine ⟨?_, hinside⟩
      simp [Nesting.outerPlace, Nesting.bracketCount, Place.next, hc, hquote]
    · exact outerPlace_of_open hopen hd hinside
    · have hne : closers ≠ [] := by
        rintro rfl
        exact (htop rfl).1 rfl
      have hpos : Nesting.bracketCount ⟨none, closers⟩ ≠ 0 :=
        Nesting.bracketCount_ne_zero hinside hne
      refine ⟨?_, Nesting.bracesInside_cons.2 ⟨fun hnil => absurd hnil hne, fun _ => hinside⟩⟩
      have hcount : Nesting.bracketCount ⟨none, '\x7d' :: closers⟩ =
          Nesting.bracketCount ⟨none, closers⟩ := List.countP_cons_of_neg (by decide)
      simp [Nesting.outerPlace, Place.next, isQuote, hcount, hpos]
    · exact outerPlace_of_close hclose hinside
    · refine ⟨?_, hinside⟩
      have hsemicolon : ¬ (Nesting.bracketCount ⟨none, closers⟩ = 0 ∧ c = ';') := by
        rintro ⟨hzero, rfl⟩
        by_cases hnil : closers = []
        · exact (htop (by simp [Nesting.isTop, hnil])).2 rfl
        · exact Nesting.bracketCount_ne_zero hinside hnil hzero
      simp only [List.mem_cons, List.not_mem_nil, or_false, not_or] at hmeans
      have hstay : (Nesting.bracketCount ⟨none, closers⟩ == 0 && endsPrelude c) = false := by
        grind [endsPrelude]
      have hopens : (slash && (c == '*' || (k.isSelector && c == '&'))) = false := by
        have hcomment := hcomment rfl
        grind
      simp [Nesting.outerPlace, Place.next, hc, hquote, hmeans, hstay, hopens]

end Step

section Run

variable {n : Nesting} {s t rest : List Char} {c : Char} {slash slash' : Bool}

theorem run_place_escape : (n.place slash).run .whole (('\\' :: c :: s).map bracketed) =
    (n.place false).run .whole (s.map bracketed) := by
  obtain ⟨quote, closers⟩ := n
  cases quote <;> rfl

theorem run_outerPlace_escape :
    (n.outerPlace slash).run .whole ('\\' :: c :: s) = (n.outerPlace false).run .whole s := by
  obtain ⟨quote, closers⟩ := n
  cases quote <;> rfl

theorem run_place_backslash : (n.place slash).run .whole ['\\'] ≠ some (.plain 0 slash') := by
  obtain ⟨quote, closers⟩ := n
  cases quote <;> exact nofun

theorem exists_next (hq : ∀ q ∈ n.quote, isQuote q) (hc : c ≠ '\\')
    (h : balancedFrom n (c :: s))
    (hp : (n.place slash).run .whole ((c :: s).map bracketed) = some (.plain 0 slash')) :
    ∃ m p, n.next? c = some m ∧ (n.place slash).next .whole (bracketed c) = some p ∧
      (∀ q ∈ m.quote, isQuote q) ∧ balancedFrom m s ∧
      (m.place (n.quote.isNone && c == '/')).run .whole (s.map bracketed) =
        some (.plain 0 slash') := by
  obtain ⟨p, hp, hrun⟩ := Option.bind_eq_some_iff.1 hp
  rw [balancedFrom_cons hc, Option.any_eq_true] at h
  obtain ⟨m, hm, h⟩ := h
  obtain rfl := place_of_next hq hc hm hp
  exact ⟨m, _, hm, hp, quote_of_next hq hm, h, hrun⟩

/-- Induction over a text in which a backslash takes the next character with it. -/
theorem escape_induction {motive : List Char → Prop} (nil : motive []) (last : motive ['\\'])
    (escape : ∀ c s, motive s → motive ('\\' :: c :: s))
    (cons : ∀ c s, c ≠ '\\' → motive s → motive (c :: s)) : (s : List Char) → motive s
  | [] => nil
  | c :: s =>
    if hc : c = '\\' then
      hc ▸ match s with
        | [] => last
        | d :: s => escape d s (escape_induction nil last escape cons s)
    else cons c s hc (escape_induction nil last escape cons s)

/-- The scan of a custom property takes a text whose brackets and braces are closed to its end. -/
theorem scanValue_of_balancedFrom (rest : List Char) (hq : ∀ q ∈ n.quote, isQuote q)
    (h : balancedFrom n s)
    (hp : (n.place slash).run .whole (s.map bracketed) = some (.plain 0 slash')) :
    scanValue n.quote n.closers.length (s ++ rest) =
      (s ++ (scanValue none 0 rest).1, (scanValue none 0 rest).2) := by
  induction s using escape_induction generalizing n slash with
  | nil =>
    obtain rfl := eq_of_isTop h
    rfl
  | last => exact absurd hp run_place_backslash
  | escape c s ih =>
    rw [run_place_escape] at hp
    rw [List.cons_append, List.cons_append, scanValue, ih hq h hp]
    rfl
  | cons c s hc ih =>
    obtain ⟨m, p, hm, hnext, hq', h, hrun⟩ := exists_next hq hc h hp
    rw [List.cons_append, scanValue_of_next hc hm (not_semicolon_of_next hnext), ih hq' h hrun]
    rfl

/-- The scan that stops at blocks takes such a text to its end or to the first brace. -/
theorem run_outerPlace_of_balancedFrom (hq : ∀ q ∈ n.quote, isQuote q) (hinside : n.BracesInside)
    (h : balancedFrom n s)
    (hp : (n.place slash).run .whole (s.map bracketed) = some (.plain 0 slash')) :
    (n.outerPlace slash).run .whole s = some (.plain 0 slash') ∨
      ∃ u v slash'', s = u ++ '\x7b' :: v ∧
        (n.outerPlace slash).run .whole u = some (.plain 0 slash'') := by
  induction s using escape_induction generalizing n slash with
  | nil =>
    obtain rfl := eq_of_isTop h
    exact .inl hp
  | last => exact absurd hp run_place_backslash
  | escape c s ih =>
    rw [run_place_escape] at hp
    rcases ih hq hinside h hp with hrun | ⟨u, v, slash'', rfl, hrun⟩
    · exact .inl (run_outerPlace_escape.trans hrun)
    · exact .inr ⟨'\\' :: c :: u, v, slash'', rfl, run_outerPlace_escape.trans hrun⟩
  | cons c s hc ih =>
    by_cases hbrace : n.isTop ∧ c = '\x7b'
    · obtain ⟨htop, rfl⟩ := hbrace
      obtain rfl := eq_of_isTop htop
      exact .inr ⟨[], s, slash, rfl, rfl⟩
    · obtain ⟨m, p, hm, hnext, hq', h, hrun⟩ := exists_next hq hc h hp
      have htop (h : n.isTop) : c ≠ '\x7b' ∧ c ≠ ';' :=
        ⟨fun hc => hbrace ⟨h, hc⟩, fun hc => not_semicolon_of_next hnext ⟨h, hc⟩⟩
      obtain ⟨houter, hinside'⟩ := outerPlace_of_next (k := .whole) hc hm hinside htop
        fun hquote hslash => ⟨not_comment_of_next hquote hslash hnext, nofun⟩
      rcases ih hq' hinside' h hrun with houtside | ⟨u, v, slash'', rfl, hfront⟩
      · refine .inl ?_
        rw [Place.run_cons, houter]
        exact houtside
      · refine .inr ⟨c :: u, v, slash'', rfl, ?_⟩
        rw [Place.run_cons, houter]
        exact hfront

/-- A value that holds blocks is taken whole where braces are brackets. -/
theorem HoldsBlocks.scanValue (h : HoldsBlocks s) (rest : List Char) :
    scanValue none 0 (s ++ rest) = (s ++ (scanValue none 0 rest).1, (scanValue none 0 rest).2) := by
  obtain ⟨hbalanced, slash, hrun⟩ := h
  exact scanValue_of_balancedFrom (n := {}) rest nofun hbalanced hrun

/-- Where they are none, the scan passes over it or stops at the first of its blocks. -/
theorem HoldsBlocks.passes (h : HoldsBlocks s) :
    Passes .whole s ∨ ∃ u v, s = u ++ '\x7b' :: v ∧ Passes .whole u := by
  obtain ⟨hbalanced, slash, hrun⟩ := h
  rcases run_outerPlace_of_balancedFrom (n := {}) nofun nofun hbalanced hrun with
    houtside | ⟨u, v, slash', rfl, hfront⟩
  · exact .inl ⟨slash, houtside⟩
  · exact .inr ⟨u, v, rfl, slash', hfront⟩

/-- A text that a semicolon ends is taken whole in front of anything. -/
theorem scanValue_append {q : Option Char} {d : Nat} (rest : List Char)
    (h : scanValue q d (s ++ [';']) = (s, [';'])) :
    scanValue q d (s ++ rest) = (s ++ (scanValue none 0 rest).1, (scanValue none 0 rest).2) := by
  have hcons {c : Char} {p : List Char × List Char} {s : List Char} (h : before c p = (c :: s, [';'])) :
      p = (s, [';']) := by
    obtain ⟨u, v⟩ := p
    simpa [before] using h
  induction s using escape_induction generalizing q d with
  | nil =>
    cases q with
    | some q => exact absurd h (by simp [Chars.scanValue, before])
    | none =>
      cases d with
      | zero => rfl
      | succ d => exact absurd h (by simp [Chars.scanValue, before])
  | last => exact absurd h (by simp [Chars.scanValue, before])
  | escape c s ih =>
    rw [List.cons_append, List.cons_append, Chars.scanValue] at h ⊢
    rw [ih (hcons (hcons h))]
    rfl
  | cons c s hc ih =>
    have hescape (rest : List Char) : ∀ d t, c = '\\' → s ++ rest = d :: t → False :=
      fun _ _ h _ => hc h
    cases q with
    | some q =>
      rw [List.cons_append, Chars.scanValue.eq_3 _ _ _ _ (hescape _)] at h ⊢
      rw [ih (hcons h)]
      rfl
    | none =>
      rw [List.cons_append, Chars.scanValue.eq_4 _ _ _ (hescape _)] at h ⊢
      split at h
      · cases h
      · next hstay =>
        rw [if_neg hstay, ih (hcons h)]
        rfl

end Run

end Chars

end UtilityCss
