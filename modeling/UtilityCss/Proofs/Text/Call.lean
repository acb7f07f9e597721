import UtilityCss.Proofs.Stylesheet.Replace
import UtilityCss.Text.Call

/-!
# Calls that are left in a text

A call is found by the identifier in front of its parenthesis. `replaceCalls` therefore does the same
as a scan that carries this identifier along. Of a text whose calls are closed, stand in no other call
and have something else than an identifier behind them, it leaves the calls of the other functions
only, whatever it writes, as long as that opens no call itself.
-/

namespace UtilityCss

namespace Chars

def nextRun (run : List Char) (c : Char) : List Char := if continuesName c then run ++ [c] else []

/-- Whether a parenthesis opens a call of one of the functions, where `run` is the identifier in
front of the text. -/
def opensCall (names : List (List Char)) (run : List Char) : List Char → Bool
  | [] => false
  | c :: s => (c == '(' && names.contains run) || opensCall names (nextRun run c) s

/-- Whether such a call is closed. -/
def holdsCall (names : List (List Char)) (run : List Char) : List Char → Bool
  | [] => false
  | c :: s => (c == '(' && names.contains run && (cutCall ['"', '\''] 0 none s).isSome) ||
      holdsCall names (nextRun run c) s

/-- Whether what stands behind a call makes neither an identifier nor a call of what is written in its
place. -/
def separates (s : List Char) : Bool := s.head?.all fun c => !continuesName c && c != '('

/-- Whether all calls of a text are calls of the allowed ones of the functions, closed, in no other
call and separated from what follows. -/
def isFlat (names allowed : List (List Char)) (run : List Char) : List Char → Bool
  | [] => true
  | c :: s =>
    if c == '(' && names.contains run then
      match hcut : cutCall ['"', '\''] 0 none s with
      | none => false
      | some (args, behind) =>
        have := congrArg List.length (append_of_cutCall hcut)
        allowed.contains run && !opensCall names [] args && separates behind &&
          isFlat names allowed [] behind
    else isFlat names allowed (nextRun run c) s
termination_by s => s.length
decreasing_by
  all_goals
    simp only [List.length_append, List.length_cons] at *
    omega

section Replace

variable {ε : Type} {name : List Char} {resolve : List Char → Except ε (List Char)}
  {u s args behind : List Char} {c : Char} {quotes : List Char}

def IsRun (s : List Char) : Prop := ∀ c ∈ s, continuesName c

theorem isRun_nil : IsRun [] := nofun

theorem isRun_cons : IsRun (c :: s) ↔ continuesName c ∧ IsRun s := List.forall_mem_cons

theorem IsRun.concat (h : IsRun s) (hc : continuesName c) : IsRun (s ++ [c]) :=
  List.forall_mem_append.2 ⟨h, List.forall_mem_singleton.2 hc⟩

/-- A name with its parenthesis begins a text exactly if it is the identifier that does. -/
theorem isPrefixOf?_run (hname : IsRun name) (hu : IsRun u) (hc : continuesName c = false) :
    (name ++ ['(']).isPrefixOf? (u ++ c :: s) = if u = name ∧ c = '(' then some s else none := by
  induction name generalizing u with
  | nil =>
    cases u with
    | nil =>
      change (if '(' == c then some s else none) = _
      by_cases hparen : '(' = c
      · simp [← hparen]
      · simp [hparen, Ne.symm hparen]
    | cons d u =>
      have hd : d ≠ '(' := by
        rintro rfl
        exact absurd (isRun_cons.1 hu).1 (by decide)
      change (if '(' == d then some (u ++ c :: s) else none) = _
      simp [hd.symm]
  | cons a name ih =>
    obtain ⟨ha, hname⟩ := isRun_cons.1 hname
    cases u with
    | nil =>
      have hac : a ≠ c := by
        rintro rfl
        rw [hc] at ha
        exact Bool.false_ne_true ha
      change (if a == c then (name ++ ['(']).isPrefixOf? s else none) = _
      simp [hac]
    | cons d u =>
      change (if a == d then (name ++ ['(']).isPrefixOf? (u ++ c :: s) else none) = _
      rw [ih hname (isRun_cons.1 hu).2]
      by_cases had : a = d
      · simp [had]
      · simp [had, Ne.symm had]

private theorem isPrefixOf?_of_isRun (hu : IsRun u) : (name ++ ['(']).isPrefixOf? u = none := by
  induction name generalizing u with
  | nil =>
    cases u with
    | nil => rfl
    | cons d u =>
      have hd : d ≠ '(' := by
        rintro rfl
        exact absurd (isRun_cons.1 hu).1 (by decide)
      change (if '(' == d then some u else none) = none
      simp [hd.symm]
  | cons a name ih =>
    cases u with
    | nil => rfl
    | cons d u =>
      change (if a == d then (name ++ ['(']).isPrefixOf? u else none) = none
      rw [ih (isRun_cons.1 hu).2]
      exact ite_self none

/-- An identifier alone is no call. -/
theorem replaceCalls_of_isRun (hu : IsRun u) (atBoundary : Bool) :
    replaceCalls name resolve atBoundary u = .ok u := by
  induction u generalizing atBoundary with
  | nil => rw [replaceCalls]
  | cons c u ih =>
    rw [replaceCalls]
    split
    · rw [ih (isRun_cons.1 hu).2]
      rfl
    · next rest h =>
      rw [isPrefixOf?_of_isRun hu] at h
      cases h

/-- What goes on with an identifier is no call. -/
theorem replaceCalls_inside (hname : IsRun name) (hne : name ≠ []) (hu : IsRun u)
    (hc : continuesName c = false) :
    replaceCalls name resolve false (u ++ c :: s) =
      (replaceCalls name resolve true s).map (u ++ c :: ·) := by
  induction u with
  | nil =>
    rw [List.nil_append, replaceCalls]
    split
    · rw [hc]
      rfl
    · next rest h =>
      rw [← List.nil_append (c :: s), isPrefixOf?_run hname isRun_nil hc] at h
      obtain ⟨⟨hnil, -⟩, -⟩ := Option.ite_none_right_eq_some.1 h
      exact absurd hnil.symm hne
  | cons d u ih =>
    obtain ⟨hd, hu'⟩ := isRun_cons.1 hu
    rw [List.cons_append, replaceCalls]
    split
    · rw [hd, Bool.not_true, ih hu']
      cases replaceCalls name resolve true s <;> rfl
    · next rest h =>
      rw [← List.cons_append, isPrefixOf?_run hname hu hc] at h
      obtain ⟨⟨hname', hparen⟩, hrest⟩ := Option.ite_none_right_eq_some.1 h
      obtain rfl := Option.some.inj hrest
      change (replaceCalls name resolve true s).map (name ++ '(' :: ·) = _
      rw [hname', hparen]

/-- A text up to behind an identifier that is not called stays. -/
theorem replaceCalls_skip (hname : IsRun name) (hne : name ≠ []) (hu : IsRun u)
    (hc : continuesName c = false) (hskip : c = '(' → u ≠ name) :
    replaceCalls name resolve true (u ++ c :: s) =
      (replaceCalls name resolve true s).map (u ++ c :: ·) := by
  have hnone : (name ++ ['(']).isPrefixOf? (u ++ c :: s) = none := by
    rw [isPrefixOf?_run hname hu hc, if_neg fun h => hskip h.2 h.1]
  cases u with
  | nil =>
    rw [List.nil_append] at hnone ⊢
    rw [replaceCalls]
    split
    · rw [hc]
      rfl
    · next rest h =>
      rw [hnone] at h
      cases h
  | cons d u =>
    obtain ⟨hd, hu'⟩ := isRun_cons.1 hu
    rw [List.cons_append] at hnone ⊢
    rw [replaceCalls]
    split
    · rw [hd, Bool.not_true, replaceCalls_inside hname hne hu' hc]
      cases replaceCalls name resolve true s <;> rfl
    · next rest h =>
      rw [hnone] at h
      cases h

/-- The call that a text begins with is replaced. -/
theorem replaceCalls_call (hname : IsRun name) (hne : name ≠ [])
    (hcut : cutCall ['"', '\''] 0 none s = some (args, behind)) :
    replaceCalls name resolve true (name ++ '(' :: s) = (do
      let value ← resolve args
      let tail ← replaceCalls name resolve true behind
      .ok (value ++ tail)) := by
  have hopens : (name ++ ['(']).isPrefixOf? (name ++ '(' :: s) = some s := by
    rw [isPrefixOf?_run hname hname (by decide), if_pos ⟨rfl, rfl⟩]
  cases name with
  | nil => exact absurd rfl hne
  | cons a name =>
    rw [List.cons_append, replaceCalls]
    split
    · next h => cases hopens.symm.trans h
    · next rest h =>
      obtain rfl := Option.some.inj (hopens.symm.trans h)
      rw [if_pos rfl]
      split
      · next h =>
        rw [hcut] at h
        cases h
      · next args' behind' h =>
        obtain ⟨rfl, rfl⟩ := Prod.mk.inj (Option.some.inj (hcut.symm.trans h))
        rfl

theorem cutCall_cons (depth : Nat) (c : Char) (s : List Char) :
    cutCall quotes depth none (c :: s) =
      if quotes.contains c then (cutCall quotes depth (some c) s).map fun p => (c :: p.1, p.2)
      else if c == '(' then (cutCall quotes (depth + 1) none s).map fun p => (c :: p.1, p.2)
      else if c == ')' then
        match depth with
        | 0 => some ([], s)
        | d + 1 => (cutCall quotes d none s).map fun p => (c :: p.1, p.2)
      else (cutCall quotes depth none s).map fun p => (c :: p.1, p.2) := by
  rfl

/-- Where a call is closed does not depend on what is behind it. -/
theorem cutCall_append {depth : Nat} {quote : Option Char} (t : List Char)
    (h : cutCall quotes depth quote s = some (args, behind)) :
    cutCall quotes depth quote (args ++ ')' :: t) = some (args, t) := by
  induction s generalizing depth quote args behind with
  | nil => cases h
  | cons c s ih =>
    have put {d : Nat} {q : Option Char} {args : List Char}
        (h : (cutCall quotes d q s).map (fun p => (c :: p.1, p.2)) = some (args, behind)) :
        ∃ inner, args = c :: inner ∧ cutCall quotes d q (inner ++ ')' :: t) = some (inner, t) := by
      obtain ⟨⟨inner, rest⟩, hcut, heq⟩ := Option.map_eq_some_iff.1 h
      obtain ⟨rfl, rfl⟩ := Prod.mk.inj heq
      exact ⟨inner, rfl, ih hcut⟩
    cases quote with
    | some q =>
      obtain ⟨inner, rfl, hcut⟩ := put h
      exact congrArg (Option.map _) hcut
    | none =>
      rw [cutCall_cons] at h
      by_cases hquote : quotes.contains c
      · rw [if_pos hquote] at h
        obtain ⟨inner, rfl, hcut⟩ := put h
        rw [List.cons_append, cutCall_cons, if_pos hquote, hcut]
        rfl
      rw [if_neg hquote] at h
      by_cases hopen : c == '('
      · rw [if_pos hopen] at h
        obtain ⟨inner, rfl, hcut⟩ := put h
        rw [List.cons_append, cutCall_cons, if_neg hquote, if_pos hopen, hcut]
        rfl
      rw [if_neg hopen] at h
      by_cases hclose : c == ')'
      · rw [if_pos hclose] at h
        cases depth with
        | zero =>
          obtain ⟨rfl, rfl⟩ := Prod.mk.inj (Option.some.inj h)
          obtain rfl := eq_of_beq hclose
          rw [List.nil_append, cutCall_cons, if_neg hquote]
          rfl
        | succ d =>
          obtain ⟨inner, rfl, hcut⟩ := put h
          rw [List.cons_append, cutCall_cons, if_neg hquote, if_neg hopen, if_pos hclose]
          exact congrArg (Option.map _) hcut
      · rw [if_neg hclose] at h
        obtain ⟨inner, rfl, hcut⟩ := put h
        rw [List.cons_append, cutCall_cons, if_neg hquote, if_neg hopen, if_neg hclose, hcut]
        rfl

end Replace

section Flat

variable {ε : Type} {names allowed : List (List Char)} {name : List Char}
  {resolve : List Char → Except ε (List Char)} {run s t out : List Char} {c : Char}

theorem opensCall_append (run s t : List Char) : opensCall names run (s ++ t) =
    (opensCall names run s || opensCall names (s.foldl nextRun run) t) := by
  induction s generalizing run with
  | nil => rfl
  | cons c s ih => rw [List.cons_append, opensCall, opensCall, ih, List.foldl_cons, Bool.or_assoc]

/-- Behind a character that neither goes on with an identifier nor opens a call, a text is read from
anew. -/
theorem opensCall_separated (hc : continuesName c = false) (hopen : c ≠ '(') :
    opensCall names run (s ++ c :: t) = (opensCall names run s || opensCall names [] t) := by
  rw [opensCall_append, opensCall, nextRun, hc, beq_false_of_ne hopen, Bool.false_and,
    Bool.false_or]
  rfl

theorem holdsCall_of_not_opensCall (h : opensCall names run s = false) :
    holdsCall names run s = false := by
  induction s generalizing run with
  | nil => rfl
  | cons c s ih =>
    rw [opensCall, Bool.or_eq_false_iff] at h
    rw [holdsCall, h.1, Bool.false_and, Bool.false_or, ih h.2]

/-- A text without calls is flat whatever is allowed, and so it is in front of a flat one. -/
theorem isFlat_append (hs : opensCall names run s = false) (ht : separates t)
    (h : isFlat names allowed [] t) : isFlat names allowed run (s ++ t) := by
  induction s generalizing run with
  | nil =>
    cases t with
    | nil => rw [List.nil_append, isFlat]
    | cons c t =>
      obtain ⟨hc, hopen⟩ : continuesName c = false ∧ c ≠ '(' := by simpa [separates] using ht
      have hnext (run : List Char) : isFlat names allowed run (c :: t) = isFlat names allowed [] t := by
        rw [isFlat, if_neg (by simp [hopen]), nextRun, hc]
        rfl
      rwa [List.nil_append, hnext, ← hnext []]
  | cons c s ih =>
    rw [opensCall, Bool.or_eq_false_iff] at hs
    rw [List.cons_append, isFlat, hs.1]
    exact ih hs.2

theorem isFlat_run (hs : IsRun s) :
    isFlat names allowed run (s ++ t) = isFlat names allowed (run ++ s) t := by
  induction s generalizing run with
  | nil => rw [List.nil_append, List.append_nil]
  | cons c s ih =>
    obtain ⟨hc, hs⟩ := isRun_cons.1 hs
    have hopen : c ≠ '(' := by
      rintro rfl
      exact absurd hc (by decide)
    rw [List.cons_append, isFlat, if_neg (by simp [hopen]), nextRun, if_pos hc, ih hs,
      List.append_assoc, List.singleton_append]

theorem not_opensCall_of_isFlat (h : isFlat names [] run s) : opensCall names run s = false := by
  fun_induction isFlat names [] run s with
  | case1 run => rfl
  | case2 => cases h
  | case3 => cases h
  | case4 run c s hcall ih =>
    rw [opensCall, Bool.eq_false_iff.2 hcall, Bool.false_or]
    exact ih h

/-- A text that opens no call stays, up to where the rest is read from anew. -/
theorem replaceCalls_append (hname : IsRun name) (hne : name ≠ []) (hmem : name ∈ names)
    (hrun : IsRun run) (hs : opensCall names run s = false) (hc : continuesName c = false)
    (hopen : c ≠ '(') : replaceCalls name resolve true (run ++ (s ++ c :: t)) =
      (replaceCalls name resolve true t).map fun t => run ++ (s ++ c :: t) := by
  induction s generalizing run with
  | nil => exact replaceCalls_skip hname hne hrun hc fun h => absurd h hopen
  | cons d s ih =>
    rw [opensCall, Bool.or_eq_false_iff] at hs
    rw [nextRun] at hs
    split at hs
    · next hd =>
      have hsame (t : List Char) : run ++ (d :: s ++ c :: t) = run ++ [d] ++ (s ++ c :: t) := by simp
      simp only [hsame]
      exact ih (hrun.concat hd) hs.2
    · next hd =>
      have hskip : d = '(' → run ≠ name := by
        rintro rfl rfl
        simp [hmem] at hs
      rw [List.cons_append, replaceCalls_skip hname hne hrun (by simpa using hd) hskip,
        ← List.nil_append (s ++ c :: t), ih isRun_nil hs.2]
      cases replaceCalls name resolve true t <;> rfl

theorem replaceCalls_eq_self (hname : IsRun name) (hne : name ≠ []) (hmem : name ∈ names)
    (hrun : IsRun run) (hs : opensCall names run s = false) :
    replaceCalls name resolve true (run ++ s) = .ok (run ++ s) := by
  induction s generalizing run with
  | nil =>
    rw [List.append_nil]
    exact replaceCalls_of_isRun hrun true
  | cons d s ih =>
    rw [opensCall, Bool.or_eq_false_iff] at hs
    rw [nextRun] at hs
    split at hs
    · next hd =>
      have hsame : run ++ d :: s = run ++ [d] ++ s := by simp
      rw [hsame]
      exact ih (hrun.concat hd) hs.2
    · next hd =>
      have hskip : d = '(' → run ≠ name := by
        rintro rfl rfl
        simp [hmem] at hs
      rw [replaceCalls_skip hname hne hrun (by simpa using hd) hskip, ← List.nil_append s,
        ih isRun_nil hs.2]
      rfl

theorem separates_replaceCalls (hname : IsRun name) (hne : name ≠ []) (hs : separates s)
    (h : replaceCalls name resolve true s = .ok out) : separates out := by
  cases s with
  | nil =>
    rw [replaceCalls] at h
    cases h
    rfl
  | cons c s =>
    obtain ⟨hc, hopen⟩ : continuesName c = false ∧ c ≠ '(' := by simpa [separates] using hs
    rw [← List.nil_append (c :: s), replaceCalls_skip hname hne isRun_nil hc
      fun h => absurd h hopen] at h
    obtain ⟨tail, -, rfl⟩ := map_eq_ok.1 h
    simp [separates, hc, hopen]

/-- Replacing the calls of one function leaves a flat text in which it is not called, if nothing that
is written opens a call. -/
theorem isFlat_replaceCalls (hname : IsRun name) (hne : name ≠ []) (hmem : name ∈ names)
    (hwritten : ∀ args value, opensCall names [] args = false → resolve args = .ok value →
      opensCall names [] value = false)
    (hrun : IsRun run) (h : isFlat names allowed run s)
    (hout : replaceCalls name resolve true (run ++ s) = .ok out) :
    isFlat names (allowed.filter (· != name)) [] out := by
  fun_induction isFlat names allowed run s generalizing out with
  | case1 run =>
    rw [List.append_nil, replaceCalls_of_isRun hrun] at hout
    cases hout
    rw [← List.append_nil run, isFlat_run hrun, isFlat]
  | case2 => cases h
  | case3 run c s hcall args behind hcut hlen ih =>
    obtain ⟨hparen, hrunMem⟩ := Bool.and_eq_true_iff.1 hcall
    obtain rfl := eq_of_beq hparen
    simp only [Bool.and_eq_true, Bool.not_eq_true'] at h
    obtain ⟨⟨⟨hallowed, hargs⟩, hbehind⟩, hflat⟩ := h
    by_cases hself : run = name
    · subst hself
      rw [replaceCalls_call hname hne hcut] at hout
      obtain ⟨value, hvalue, hout⟩ := bind_eq_ok.1 hout
      obtain ⟨rest, hrest, hout⟩ := bind_eq_ok.1 hout
      cases hout
      exact isFlat_append (hwritten args value hargs hvalue)
        (separates_replaceCalls hname hne hbehind hrest) (ih isRun_nil hflat hrest)
    · rw [replaceCalls_skip hname hne hrun (by decide) (fun _ => hself), ← append_of_cutCall hcut,
        ← List.nil_append (args ++ _), replaceCalls_append hname hne hmem isRun_nil hargs (by decide)
          (by decide)] at hout
      obtain ⟨inner, hinner, rfl⟩ := map_eq_ok.1 hout
      obtain ⟨rest, hrest, rfl⟩ := map_eq_ok.1 hinner
      have hkept : (allowed.filter (· != name)).contains run := by
        simpa [hself] using hallowed
      rw [isFlat_run hrun, List.nil_append, isFlat, if_pos hcall]
      split
      · next hnone =>
        rw [List.nil_append, cutCall_append rest hcut] at hnone
        cases hnone
      · next args' behind' hcut' =>
        rw [List.nil_append, cutCall_append rest hcut] at hcut'
        obtain ⟨rfl, rfl⟩ := Prod.mk.inj (Option.some.inj hcut')
        rw [hkept, hargs, separates_replaceCalls hname hne hbehind hrest]
        exact ih isRun_nil hflat hrest
  | case4 run c s hcall ih =>
    by_cases hc : continuesName c
    · have hsame : run ++ c :: s = run ++ [c] ++ s := by simp
      rw [nextRun, if_pos hc] at ih h
      exact ih (hrun.concat hc) h (hsame ▸ hout)
    · have hskip : c = '(' → run ≠ name := by
        rintro rfl rfl
        simp [hmem] at hcall
      rw [replaceCalls_skip hname hne hrun (by simpa using hc) hskip] at hout
      obtain ⟨rest, hrest, rfl⟩ := map_eq_ok.1 hout
      rw [isFlat_run hrun, List.nil_append, isFlat, if_neg hcall]
      rw [nextRun, if_neg hc] at ih h ⊢
      exact ih isRun_nil h hrest

end Flat

end Chars

end UtilityCss
