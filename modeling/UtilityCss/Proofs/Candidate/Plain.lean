import UtilityCss.Candidate.Argument
import UtilityCss.Proofs.Stylesheet.Block
import UtilityCss.Proofs.Stylesheet.Reading
import UtilityCss.Proofs.Value.Spacing

/-!
# What the checks of texts in brackets leave open

A text in brackets is read if its brackets and quotes are closed and it is one statement. A scan passes
over such a text unless a comment opens in it, a block opens outside of brackets, or a backslash takes
what is behind it with it: only so can a text that is read reach outside its own place.
-/

namespace UtilityCss

def Nesting.bracketed (n : Nesting) : Nesting := ⟨n.quote, n.closers.map Chars.bracketed⟩

namespace Chars

/-- Whether something opens with a character that nothing closes again: a comment, which `&` opens too
where `*` may take its place, or a block outside of brackets. -/
def opensOut (k : TextKind) (n : Nesting) (slash : Bool) (c : Char) : Bool :=
  n.quote.isNone && ((slash && (c == '*' || (k.isSelector && c == '&'))) ||
    (n.closers.isEmpty && c == '\x7b'))

/-- Whether a text that is read from the state `n` reaches outside although its brackets and quotes are
closed. `slash` says that a slash stands in front. A backslash at the end takes what follows with it,
the bracket that is still open there, and a blank that may be trimmed away. -/
def reachesOut (k : TextKind) : Nesting → Bool → List Char → Bool
  | _, _, [] => false
  | _, _, ['\\'] => true
  | n, _, '\\' :: c :: s =>
    (s.isEmpty && !n.isTop) || (k.isSelector && n.isTop && isBlank c) || reachesOut k n false s
  | n, slash, c :: s =>
    opensOut k n slash c || reachesOut k (n.next c) (n.quote.isNone && c == '/') s

section Step

variable {k : TextKind} {n m : Nesting} {s : List Char} {c : Char} {slash : Bool}

theorem reachesOut_cons (hc : c ≠ '\\') : reachesOut k n slash (c :: s) =
    (opensOut k n slash c || reachesOut k (n.next c) (n.quote.isNone && c == '/') s) := by
  rw [reachesOut]
  · exact fun h _ => hc h
  · exact fun _ _ h _ => hc h

private theorem run_outerPlace_escape_of (hinside : n.BracesInside)
    (hblank : (k.isSelector && n.isTop && isBlank c) = false) :
    (n.outerPlace slash).run k ('\\' :: c :: s) = (n.outerPlace false).run k s := by
  obtain ⟨quote, closers⟩ := n
  cases quote with
  | some q => rfl
  | none =>
    have hkeep : (k.isSelector && Nesting.bracketCount ⟨none, closers⟩ == 0 && isBlank c) = false := by
      by_cases hnil : closers = []
      · subst hnil
        exact hblank
      · simp [Nesting.bracketCount_ne_zero hinside hnil]
    change (((Place.escaped none (Nesting.bracketCount ⟨none, closers⟩)).next k c).bind fun q =>
      q.run k s) = _
    rw [Place.next, hkeep]
    rfl

/-- Where the check of brackets finds all closed and does not split the text, the scan passes over it,
unless it reaches outside. -/
theorem run_outerPlace (h : balancedFrom n s) (hone : IsUncut ';' n s) (hinside : n.BracesInside)
    (hout : reachesOut k n slash s = false) :
    ∃ slash', (n.outerPlace slash).run k s = some (.plain 0 slash') := by
  induction s using escape_induction generalizing n slash with
  | nil =>
    obtain rfl := eq_of_isTop h
    exact ⟨slash, rfl⟩
  | last => exact absurd hout (by simp [reachesOut])
  | escape c s ih =>
    rw [reachesOut, Bool.or_eq_false_iff, Bool.or_eq_false_iff] at hout
    rw [run_outerPlace_escape_of hinside hout.1.2]
    exact ih h hone hinside hout.2
  | cons c s hc ih =>
    rw [balancedFrom_cons hc, Option.any_eq_true] at h
    obtain ⟨m, hm, h⟩ := h
    obtain rfl := eq_next_of_next? hm
    rw [reachesOut_cons hc, Bool.or_eq_false_iff] at hout
    obtain ⟨hkeep, hone⟩ := (isUncut_cons hc).1 hone
    have htop (h : n.isTop) : c ≠ '\x7b' ∧ c ≠ ';' := by
      obtain rfl := eq_of_isTop h
      refine ⟨?_, ?_⟩
      · rintro rfl
        simp [opensOut] at hout
      · rintro rfl
        exact absurd hkeep (by decide)
    have hcomment (hquote : n.quote = none) (hslash : slash) :
        c ≠ '*' ∧ (k.isSelector → c ≠ '&') := by
      simp only [opensOut, hquote, hslash, Option.isNone_none, Bool.true_and, Bool.or_eq_false_iff,
        beq_eq_false_iff_ne] at hout
      exact ⟨hout.1.1.1, fun hk => by simpa [hk] using hout.1.1.2⟩
    obtain ⟨hnext, hinside'⟩ := outerPlace_of_next hc hm hinside htop hcomment
    rw [Place.run_cons, hnext]
    exact ih h hone hinside' hout.2

end Step

section Escape

variable {n m : Nesting} {s t r : List Char} {c : Char} {escaped : Bool}

/-- One step of the check of brackets, with whether the character is escaped. -/
def readNext : Bool × Nesting → Char → Option (Bool × Nesting)
  | (true, n), _ => some (false, n)
  | (false, n), c => if c == '\\' then some (true, n) else (n.next? c).map (false, ·)

theorem readNext_of_ne (hc : c ≠ '\\') : readNext (false, n) c = (n.next? c).map (false, ·) :=
  if_neg (by simpa using hc)

theorem balancedFrom_eq (n : Nesting) (s : List Char) :
    balancedFrom n s = (s.foldlM readNext (false, n)).any (·.2.isTop) := by
  induction s using escape_induction generalizing n with
  | nil => rfl
  | last => rfl
  | escape c s ih => exact ih n
  | cons c s hc ih =>
    rw [balancedFrom_cons hc, List.foldlM_cons, readNext_of_ne hc]
    cases n.next? c with
    | none => rfl
    | some m => exact ih m

def IsQuoted (n : Nesting) : Prop := ∀ q ∈ n.quote, isQuote q

theorem IsQuoted.readNext {st st' : Bool × Nesting} (hq : IsQuoted st.2)
    (h : readNext st c = some st') : IsQuoted st'.2 := by
  obtain ⟨escaped, n⟩ := st
  cases escaped with
  | true =>
    obtain rfl := Option.some.inj h
    exact hq
  | false =>
    rw [Chars.readNext] at h
    split at h
    · obtain rfl := Option.some.inj h
      exact hq
    · obtain ⟨m, hm, rfl⟩ := Option.map_eq_some_iff.1 h
      exact quote_of_next hq hm

/-- Whether a character means nothing to the check of brackets. -/
def IsNeutral (c : Char) : Prop := c ∉ ['\\', '"', '\'', '(', '[', '\x7b', ')', ']', '\x7d']

instance : DecidablePred IsNeutral := fun c => inferInstanceAs (Decidable (c ∉ _))

theorem readNext_of_isNeutral (hc : IsNeutral c) (hq : IsQuoted n) :
    readNext (escaped, n) c = some (false, n) := by
  rw [IsNeutral, List.mem_cons, not_or] at hc
  obtain ⟨hescape, hplain⟩ := hc
  cases escaped with
  | true => rfl
  | false =>
    rw [readNext_of_ne hescape]
    obtain ⟨quote, closers⟩ := n
    cases quote with
    | some q =>
      have hne : (c == q) = false := by
        have := hq q rfl
        grind [isQuote]
      simp [Nesting.next?, Nesting.next, hne]
    | none =>
      have hcloser : isCloser c = false := by grind [isCloser]
      rw [Nesting.next?, next_of_notMem hplain, hcloser]
      rfl

theorem foldlM_readNext_congr {st : Bool × Nesting} (hq : IsQuoted st.2)
    (h : ∀ st', IsQuoted st'.2 → r.foldlM readNext st' = s.foldlM readNext st') :
    (c :: r).foldlM readNext st = (c :: s).foldlM readNext st := by
  rw [List.foldlM_cons, List.foldlM_cons]
  cases hst : readNext st c with
  | none => rfl
  | some st' => exact h st' (hq.readNext hst)

theorem foldlM_decodeUnderscores {st : Bool × Nesting} (hq : IsQuoted st.2) (d : Option Nat)
    (s : List Char) : (decodeUnderscores d s).foldlM readNext st = s.foldlM readNext st := by
  fun_induction decodeUnderscores d s generalizing st with
  | case1 => rfl
  | case2 d c s ih => exact foldlM_readNext_congr hq fun st' hq' => ih hq'
  | case3 s ih =>
    obtain ⟨escaped, n⟩ := st
    have hread : ('\\' :: '_' :: s).foldlM readNext (escaped, n) = s.foldlM readNext (false, n) := by
      cases escaped with
      | true =>
        change (readNext (false, n) '_').bind _ = _
        rw [readNext_of_isNeutral (by decide) hq]
        rfl
      | false => rfl
    rw [hread, List.foldlM_cons, readNext_of_isNeutral (by decide) hq]
    exact ih hq
  | case4 s ih =>
    exact foldlM_readNext_congr hq fun _ hq => foldlM_readNext_congr hq fun _ hq =>
      foldlM_readNext_congr hq fun _ hq => foldlM_readNext_congr hq fun _ hq => ih hq
  | case5 c s _ _ ih =>
    split
    · next hc =>
      obtain rfl := eq_of_beq hc
      obtain ⟨escaped, n⟩ := st
      rw [List.foldlM_cons, List.foldlM_cons, readNext_of_isNeutral (by decide) hq,
        readNext_of_isNeutral (by decide) hq]
      exact ih hq
    · exact foldlM_readNext_congr hq fun st' hq' => ih hq'

theorem Spaced.foldlM_readNext {may : List Char → Char → Prop} {read : List Char}
    {st : Bool × Nesting} (h : Spaced may read s r)
    (hmay : ∀ read c, may read c → MathScan.isOperator c) (hq : IsQuoted st.2) :
    r.foldlM readNext st = s.foldlM readNext st := by
  induction h generalizing st with
  | nil => rfl
  | kept _ ih => exact foldlM_readNext_congr hq fun st' hq' => ih hq'
  | @spaced read s r w c hc hw _ ih =>
    obtain ⟨escaped, n⟩ := st
    have hneutral : IsNeutral c := by
      have hoperator := hmay read c hc
      simp only [MathScan.isOperator, Bool.or_eq_true, beq_iff_eq] at hoperator
      rcases hoperator with ((rfl | rfl) | rfl) | rfl <;> decide
    have hspace : IsNeutral ' ' := by decide
    have hword : w.foldlM readNext (escaped, n) = some (false, n) := by
      simp only [List.mem_cons, List.not_mem_nil, or_false] at hw
      rcases hw with rfl | rfl | rfl <;>
        simp [List.foldlM, readNext_of_isNeutral hneutral hq, readNext_of_isNeutral hspace hq]
    rw [List.foldlM_append, hword, List.foldlM_cons, readNext_of_isNeutral hneutral hq]
    exact ih hq

/-- What stands for a text in brackets has the brackets and quotes of the text. -/
theorem isBalanced_decodeArbitrary (s : List Char) :
    isBalanced (decodeArbitrary s) = isBalanced s := by
  have hq : IsQuoted {} := nofun
  rw [decodeArbitrary]
  split
  · rfl
  · rw [isBalanced, isBalanced, balancedFrom_eq, balancedFrom_eq, ← foldlM_decodeUnderscores hq none s]
    dsimp only
    split
    · rw [(spaced_spaceOperators _).foldlM_readNext (fun _ _ h => h.1) hq]
    · rfl

theorem foldlM_blanks (hs : ∀ c ∈ s, isBlank c) (hq : IsQuoted n) :
    s.foldlM readNext (escaped, n) = some (escaped && s.isEmpty, n) := by
  induction s generalizing escaped with
  | nil =>
    rw [List.isEmpty_nil, Bool.and_true]
    rfl
  | cons c s ih =>
    obtain ⟨hc, hs⟩ := List.forall_mem_cons.1 hs
    have hneutral : IsNeutral c := by
      intro hmem
      have hblank : ∀ c ∈ ['\\', '"', '\'', '(', '[', '\x7b', ')', ']', '\x7d'],
          isBlank c = false := by
        decide
      rw [hblank c hmem] at hc
      exact absurd hc Bool.false_ne_true
    rw [List.foldlM_cons, readNext_of_isNeutral hneutral hq, List.isEmpty_cons, Bool.and_false]
    exact ih hs

theorem IsQuoted.foldlM {st st' : Bool × Nesting} (hq : IsQuoted st.2)
    (h : s.foldlM Chars.readNext st = some st') : IsQuoted st'.2 := by
  induction s generalizing st with
  | nil =>
    obtain rfl := Option.some.inj h
    exact hq
  | cons c s ih =>
    rw [List.foldlM_cons] at h
    obtain ⟨st₁, hst, h⟩ := Option.bind_eq_some_iff.1 h
    exact ih (hq.readNext hst) h

/-- Blanks around a text open and close nothing. -/
theorem isBalanced_trim (h : isBalanced s) : isBalanced (trim s) := by
  have hq : IsQuoted {} := nofun
  obtain ⟨u, hu, hs⟩ := exists_trimStart s
  obtain ⟨v, hv, ht⟩ := exists_trimEnd (trimStart s)
  rw [isBalanced, balancedFrom_eq, hs, List.foldlM_append, foldlM_blanks hu hq, ht] at h
  change ((trim s ++ v).foldlM readNext (false, {})).any _ = true at h
  rw [List.foldlM_append] at h
  rw [isBalanced, balancedFrom_eq]
  cases htrim : (trim s).foldlM readNext (false, {}) with
  | none =>
    rw [htrim] at h
    exact absurd h Bool.false_ne_true
  | some st =>
    rw [htrim] at h
    change (v.foldlM readNext (st.1, st.2)).any _ = true at h
    have hend : IsQuoted st.2 := by
      refine IsQuoted.foldlM ?_ htrim
      exact hq
    rwa [foldlM_blanks hv hend] at h

end Escape

section Passes

variable {k : TextKind} {n m : Nesting} {s t front : List Char} {c : Char} {slash : Bool}

/-- A text whose brackets and quotes are closed and that is not split is closed, unless it reaches
outside. -/
theorem passes_of_isBalanced (h : isBalanced s) (hone : IsUncut ';' {} s)
    (hout : reachesOut k {} false s = false) : Passes k s :=
  run_outerPlace (n := {}) h hone nofun hout

theorem checks_of_tame (hs : ∀ c ∈ s, isTame c) (h : isBalanced (s ++ t))
    (hone : IsUncut ';' {} (s ++ t)) : isBalanced t ∧ IsUncut ';' {} t := by
  induction s with
  | nil => exact ⟨h, hone⟩
  | cons c s ih =>
    obtain ⟨hc, hs⟩ := List.forall_mem_cons.1 hs
    have hnext := next?_tame hc
    rw [List.cons_append, isBalanced, balancedFrom_cons (ne_backslash_of_isTame hc), hnext] at h
    rw [List.cons_append, isUncut_cons (ne_backslash_of_isTame hc), ← eq_next_of_next? hnext] at hone
    exact ih hs h hone.2

theorem reachesOut_append (h : nestingAfter? n s = some m)
    (hout : reachesOut k n slash (s ++ t) = false) :
    ∃ slash', reachesOut k m slash' t = false := by
  fun_induction nestingAfter? n s generalizing slash with
  | case1 n =>
    cases h
    exact ⟨slash, hout⟩
  | case2 => cases h
  | case3 n c s ih =>
    rw [List.cons_append, List.cons_append, reachesOut, Bool.or_eq_false_iff] at hout
    exact ih h hout.2
  | case4 n c s hlast hescape ih =>
    obtain ⟨n', hn', h⟩ := Option.bind_eq_some_iff.1 h
    rw [List.cons_append, reachesOut_cons (ne_backslash hlast hescape), Bool.or_eq_false_iff,
      ← eq_next_of_next? hn'] at hout
    exact ih n' h hout.2

/-- A text in front of the bracket that closes it is whole, unless its last backslash takes that
bracket with it. -/
theorem nestingAfter?_of_balancedFrom (h : balancedFrom n s)
    (hout : reachesOut k (n.inside [')']) slash (s ++ [')']) = false) :
    nestingAfter? n s = some {} := by
  induction s using escape_induction generalizing n slash with
  | nil =>
    obtain rfl := eq_of_isTop h
    rfl
  | last =>
    rw [List.singleton_append, reachesOut] at hout
    simp [Nesting.isTop, Nesting.inside] at hout
  | escape c s ih =>
    rw [List.cons_append, List.cons_append, reachesOut, Bool.or_eq_false_iff] at hout
    exact ih h hout.2
  | cons c s hc ih =>
    rw [balancedFrom_cons hc, Option.any_eq_true] at h
    obtain ⟨m, hm, h⟩ := h
    rw [List.cons_append, reachesOut_cons hc, Bool.or_eq_false_iff,
      ← eq_next_of_next? (next?_inside [')'] hm)] at hout
    rw [nestingAfter?_cons hc, hm]
    exact ih h hout.2

/-- A text that is put into a call is closed, unless it reaches outside. -/
theorem passes_call (hfront : nestingAfter? {} front = some ⟨none, [')']⟩)
    (huncut : IsUncut ';' {} front) (h : isBalanced s)
    (hout : reachesOut k {} false (front ++ s ++ [')']) = false) :
    Passes k (front ++ s ++ [')']) := by
  have hinside : Nesting.inside {} [')'] = ⟨none, [')']⟩ := rfl
  rw [List.append_assoc] at hout ⊢
  obtain ⟨slash, hbehind⟩ := reachesOut_append hfront hout
  have hwhole : nestingAfter? {} s = some {} := nestingAfter?_of_balancedFrom h hbehind
  have hcall := nestingAfter?_inside [')'] hwhole
  have hclose : nestingAfter? ⟨none, [')']⟩ [')'] = some {} := rfl
  refine passes_of_isBalanced (isBalanced_of_nestingAfter? (m := {}) ?_ rfl)
    (huncut.append hfront ?_) hout
  · rw [nestingAfter?_append hfront, ← hinside, nestingAfter?_append hcall]
    exact hclose
  · exact (isUncut_inside (List.cons_ne_nil _ _) hwhole).append hcall rfl

end Passes

section Bracketed

variable {n m : Nesting} {s : List Char} {c : Char}

private theorem next?_bracketed (hq : IsQuoted n) (h : n.next? c = some m) :
    n.bracketed.next? (bracketed c) = some m.bracketed := by
  obtain ⟨quote, closers⟩ := n
  cases quote with
  | some q =>
    obtain rfl := next?_quoted h
    have hquote : isQuote q := hq q rfl
    have hkeep : (bracketed c == q) = (c == q) := by grind [bracketed, isQuote]
    rw [Nesting.bracketed, Nesting.next?, Nesting.next]
    by_cases hc : c == q <;> simp [Nesting.bracketed, hkeep, hc]
  | none =>
    rcases next?_cases h with ⟨hquote, rfl⟩ | ⟨hopen, d, hd, rfl⟩ | ⟨rfl, rfl⟩ |
      ⟨hclose, tail, rfl, rfl⟩ | ⟨hquote, hmeans, rfl⟩
    · rcases isQuote_iff.1 hquote with rfl | rfl <;> rfl
    · have hclosers := congrArg Nesting.closers (eq_next_of_next? h).symm
      rcases hopen with rfl | rfl
      · obtain rfl : ')' = d := (List.cons.inj hclosers).1
        rfl
      · obtain rfl : ']' = d := (List.cons.inj hclosers).1
        rfl
    · rfl
    · rcases hclose with rfl | rfl | rfl <;> rfl
    · have hkeep : bracketed c = c := by grind [bracketed]
      simp only [List.mem_cons, List.not_mem_nil, or_false, not_or] at hmeans
      have hopens : closer? c = none := by grind [closer?]
      have hcloser : isCloser c = false := by grind [isCloser]
      simp [Nesting.bracketed, Nesting.next?, Nesting.next, hkeep, hquote, hopens, hcloser]

/-- With square brackets in the place of braces a text is as closed as it was, and not split either. -/
theorem balancedFrom_bracketed (hq : IsQuoted n) (h : balancedFrom n s) (hone : IsUncut ';' n s) :
    balancedFrom n.bracketed (s.map bracketed) ∧ IsUncut ';' n.bracketed (s.map bracketed) := by
  have htop (n : Nesting) : n.bracketed.isTop = n.isTop := by
    simp [Nesting.isTop, Nesting.bracketed]
  induction s using escape_induction generalizing n with
  | nil => exact ⟨(htop n).trans h, rfl⟩
  | last => exact ⟨(htop n).trans h, rfl⟩
  | escape c s ih => exact ih hq h hone
  | cons c s hc ih =>
    have hescape : bracketed c ≠ '\\' := by grind [bracketed]
    rw [balancedFrom_cons hc, Option.any_eq_true] at h
    obtain ⟨m, hm, h⟩ := h
    obtain ⟨hkeep, hone⟩ := (isUncut_cons hc).1 hone
    have hnext := next?_bracketed hq hm
    obtain rfl := eq_next_of_next? hm
    obtain ⟨hbalanced, huncut⟩ := ih (quote_of_next hq hm) h hone
    rw [List.map_cons, balancedFrom_cons hescape, hnext, isUncut_cons hescape,
      ← eq_next_of_next? hnext, htop]
    refine ⟨hbalanced, ?_, huncut⟩
    by_cases hsep : c = ';'
    · subst hsep
      exact hkeep
    · have hne : bracketed c ≠ ';' := by grind [bracketed]
      simp [hne]

/-- A value may hold blocks, unless it reaches outside where braces are brackets. -/
theorem holdsBlocks_of_isBalanced (h : isBalanced s) (hone : IsUncut ';' {} s)
    (hout : reachesOut .whole {} false (s.map bracketed) = false) : HoldsBlocks s := by
  obtain ⟨hbalanced, huncut⟩ := balancedFrom_bracketed (n := {}) nofun h hone
  exact ⟨h, passes_of_isBalanced hbalanced huncut hout⟩

end Bracketed

end Chars

def ReachesOut (k : TextKind) (s : String) : Prop := Chars.reachesOut k {} false s.toList

instance {k : TextKind} : DecidablePred (ReachesOut k) :=
  fun s => inferInstanceAs (Decidable (Chars.reachesOut k {} false s.toList = true))

section Plain

variable {k : TextKind} {s front : String}

/-- The brackets and quotes of a value that may stand in brackets are closed, and it is one statement. -/
theorem isPlainValue_iff : isPlainValue s ↔
    (Text.trim s).isEmpty = false ∧ isBalanced s ∧ Chars.IsUncut ';' {} s.toList := by
  simp only [isPlainValue, segment, List.length_map, Bool.and_eq_true, beq_iff_eq, Bool.not_eq_true',
    Chars.IsUncut, Chars.segment, List.length_cons, Nat.add_eq_right, List.length_eq_zero_iff, and_assoc]

theorem passes_of_isPlainValue (h : isPlainValue s) (hout : ¬ ReachesOut k s) : Passes k s := by
  obtain ⟨-, hbalanced, hone⟩ := isPlainValue_iff.1 h
  exact Chars.passes_of_isBalanced hbalanced hone (Bool.eq_false_iff.2 hout)

theorem passes_trim_of_isPlainValue (h : isPlainValue s) (hout : ¬ ReachesOut k (Text.trim s)) :
    Passes k (Text.trim s) := by
  obtain ⟨-, hbalanced, hone⟩ := isPlainValue_iff.1 h
  have hout := Bool.eq_false_iff.2 hout
  rw [Passes]
  rw [Text.trim, String.toList_ofList] at hout ⊢
  exact Chars.passes_of_isBalanced (Chars.isBalanced_trim hbalanced) hone.trim hout

/-- The parameters of an at-rule with a name are closed, unless they reach outside. -/
theorem passes_params {p : String × String} (h : isPlainValue s)
    (hp : Node.atHead? (Text.trim s) = some p) (hname : Chars.isAtName p.1.toList)
    (hout : ¬ ReachesOut k p.2) : Passes k p.2 := by
  obtain ⟨-, hbalanced, hone⟩ := isPlainValue_iff.1 h
  have hbalanced := Chars.isBalanced_trim (Chars.isBalanced_trim hbalanced)
  have hone := hone.trim.trim
  rw [Node.atHead?, Text.trim, String.toList_ofList] at hp
  split at hp
  · next u hu =>
    dsimp only at hp
    split at hp
    · cases hp
    · cases hp
      rw [String.toList_ofList] at hname
      have hout := Bool.eq_false_iff.2 hout
      rw [Passes]
      rw [String.toList_ofList] at hout ⊢
      have hsplit : '@' :: u = ('@' :: u.takeWhile fun c => !isBlank c && c != '(') ++
          u.drop (u.takeWhile fun c => !isBlank c && c != '(').length := by
        rw [List.cons_append]
        congr 1
        exact List.prefix_iff_eq_append.1 (List.takeWhile_prefix _) |>.symm
      rw [hu, hsplit] at hbalanced hone
      have htame : ∀ c ∈ '@' :: u.takeWhile (fun c => !isBlank c && c != '('), Chars.isTame c := by
        refine List.forall_mem_cons.2 ⟨by decide, fun c hc => ?_⟩
        exact Chars.isTame_of_isNameChar ((Chars.isAtName_iff.1 hname).2 c hc)
      obtain ⟨hbalanced, hone⟩ := Chars.checks_of_tame htame hbalanced hone
      exact Chars.passes_of_isBalanced (Chars.isBalanced_trim hbalanced) hone.trim hout
  · cases hp

theorem holdsBlocks_of_isPlainValue (h : isPlainValue s)
    (hout : Chars.reachesOut .whole {} false (s.toList.map Chars.bracketed) = false) :
    Chars.HoldsBlocks s.toList := by
  obtain ⟨-, hbalanced, hone⟩ := isPlainValue_iff.1 h
  exact Chars.holdsBlocks_of_isBalanced hbalanced hone hout

/-- A text with closed brackets and quotes that is put into a call is closed. -/
theorem passes_call (hfront : Chars.nestingAfter? {} front.toList = some ⟨none, [')']⟩)
    (huncut : Chars.IsUncut ';' {} front.toList) (h : isBalanced s)
    (hout : ¬ ReachesOut k (front ++ s ++ ")")) : Passes k (front ++ s ++ ")") := by
  have htext : (front ++ s ++ ")").toList = front.toList ++ s.toList ++ [')'] := by simp
  have hout := Bool.eq_false_iff.2 hout
  rw [Passes]
  rw [htext] at hout ⊢
  exact Chars.passes_call hfront huncut h hout

theorem isBalanced_decodeArbitrary (h : isBalanced s) : isBalanced (decodeArbitrary s) := by
  rw [isBalanced, decodeArbitrary, String.toList_ofList, Chars.isBalanced_decodeArbitrary]
  exact h

theorem isBalanced_trim (h : isBalanced s) : isBalanced (Text.trim s) := by
  rw [isBalanced, Text.trim, String.toList_ofList]
  exact Chars.isBalanced_trim h

end Plain

end UtilityCss
