import UtilityCss.Proofs.Text.Call

/-!
# Calls that are closed

Nothing is replaced behind a call that is not closed. So `replaceCalls` leaves a text as it is if the
first call in it is not closed, and what it makes of a text with all calls closed does not depend on
what is behind.
-/

namespace UtilityCss

namespace Chars

/-- Whether the first call of a function is closed, where `run` is the identifier in front of the
text. -/
def closesFirst (name run : List Char) : List Char → Bool
  | [] => false
  | c :: s =>
    if c == '(' && run == name then (cutCall ['"', '\''] 0 none s).isSome
    else closesFirst name (nextRun run c) s

def closesAll (name run : List Char) : List Char → Bool
  | [] => true
  | c :: s =>
    if c == '(' && run == name then
      match hcut : cutCall ['"', '\''] 0 none s with
      | none => false
      | some (args, behind) =>
        have := congrArg List.length (append_of_cutCall hcut)
        closesAll name [] behind
    else closesAll name (nextRun run c) s
termination_by s => s.length
decreasing_by
  all_goals
    simp only [List.length_append, List.length_cons] at *
    omega

/-- A scan for the calls of a function, where `run` is the identifier in front of the text: it takes
an identifier up, passes what is no call, goes on behind a call that is closed and stops at one that is
not. -/
inductive CallScan (name : List Char) : List Char → List Char → Prop where
  | done {run : List Char} : IsRun run → CallScan name run []
  | continued {run s : List Char} {c : Char} : IsRun run → continuesName c →
    CallScan name (run ++ [c]) s → CallScan name run (c :: s)
  | passed {run s : List Char} {c : Char} : IsRun run → continuesName c = false →
    (c = '(' → run ≠ name) → CallScan name [] s → CallScan name run (c :: s)
  | closed {s args behind : List Char} : cutCall ['"', '\''] 0 none s = some (args, behind) →
    CallScan name [] behind → CallScan name name ('(' :: s)
  | unclosed {s : List Char} : cutCall ['"', '\''] 0 none s = none → CallScan name name ('(' :: s)

section Scan

variable {ε : Type} {names : List (List Char)} {name run s t args behind out : List Char}
  {resolve : List Char → Except ε (List Char)} {c : Char}

theorem callScan (name : List Char) (hrun : IsRun run) (s : List Char) : CallScan name run s := by
  induction hlength : s.length using Nat.strongRecOn generalizing run s with
  | ind n ih =>
    cases s with
    | nil => exact .done hrun
    | cons c s =>
      rw [List.length_cons] at hlength
      by_cases hcall : c = '(' ∧ run = name
      · obtain ⟨rfl, rfl⟩ := hcall
        cases hcut : cutCall ['"', '\''] 0 none s with
        | none => exact .unclosed hcut
        | some p =>
          have hbehind := congrArg List.length (append_of_cutCall hcut)
          rw [List.length_append, List.length_cons] at hbehind
          exact .closed hcut (ih _ (by omega) isRun_nil p.2 rfl)
      · cases hc : continuesName c with
        | true => exact .continued hrun hc (ih _ (by omega) (hrun.concat hc) s rfl)
        | false =>
          exact .passed hrun hc (fun hparen hname => hcall ⟨hparen, hname⟩)
            (ih _ (by omega) isRun_nil s rfl)

theorem ne_paren_of_continuesName (hc : continuesName c) : c ≠ '(' := by
  rintro rfl
  exact absurd hc (by decide)

theorem closesFirst_continued (hc : continuesName c) :
    closesFirst name run (c :: s) = closesFirst name (run ++ [c]) s := by
  rw [closesFirst, if_neg (by simp [ne_paren_of_continuesName hc]), nextRun, if_pos hc]

theorem closesFirst_passed (hc : continuesName c = false) (hpass : c = '(' → run ≠ name) :
    closesFirst name run (c :: s) = closesFirst name [] s := by
  rw [closesFirst, if_neg (by simpa using hpass), nextRun, hc]
  rfl

theorem closesFirst_call :
    closesFirst name name ('(' :: s) = (cutCall ['"', '\''] 0 none s).isSome := by
  rw [closesFirst, if_pos (by simp)]

private theorem closesAll_continued (hc : continuesName c) :
    closesAll name run (c :: s) = closesAll name (run ++ [c]) s := by
  rw [closesAll, if_neg (by simp [ne_paren_of_continuesName hc]), nextRun, if_pos hc]

private theorem closesAll_passed (hc : continuesName c = false) (hpass : c = '(' → run ≠ name) :
    closesAll name run (c :: s) = closesAll name [] s := by
  rw [closesAll, if_neg (by simpa using hpass), nextRun, hc]
  rfl

private theorem closesAll_closed (hcut : cutCall ['"', '\''] 0 none s = some (args, behind)) :
    closesAll name name ('(' :: s) = closesAll name [] behind := by
  rw [closesAll, if_pos (by simp)]
  split
  · next hcut' =>
    rw [hcut] at hcut'
    cases hcut'
  · next hcut' =>
    cases hcut.symm.trans hcut'
    rfl

private theorem closesAll_unclosed (hcut : cutCall ['"', '\''] 0 none s = none) :
    closesAll name name ('(' :: s) = false := by
  rw [closesAll, if_pos (by simp)]
  split
  · rfl
  · next hcut' =>
    rw [hcut] at hcut'
    cases hcut'

variable (hname : IsRun name) (hne : name ≠ [])

include hname hne

theorem replaceCalls_unclosed (hcut : cutCall ['"', '\''] 0 none s = none) :
    replaceCalls name resolve true (name ++ '(' :: s) = .ok (name ++ '(' :: s) := by
  have hopens : (name ++ ['(']).isPrefixOf? (name ++ '(' :: s) = some s := by
    rw [isPrefixOf?_run hname hname (by decide), if_pos ⟨rfl, rfl⟩]
  cases name with
  | nil => exact absurd rfl hne
  | cons a name =>
    rw [List.cons_append, replaceCalls]
    split
    · next h => cases hopens.symm.trans h
    · next rest h =>
      obtain rfl := Option.some.inj (hopens.symm.trans h)
      rw [if_pos rfl]
      split
      · rfl
      · next hcut' =>
        rw [hcut] at hcut'
        cases hcut'

theorem replaceCalls_passed (hrun : IsRun run) (hc : continuesName c = false)
    (hpass : c = '(' → run ≠ name) : replaceCalls name resolve true (run ++ c :: s) =
      (replaceCalls name resolve true ([] ++ s)).map (run ++ c :: ·) :=
  replaceCalls_skip hname hne hrun hc hpass

/-- Nothing is replaced if the first call is not closed. -/
theorem replaceCalls_of_not_closesFirst (hrun : IsRun run) (h : closesFirst name run s = false) :
    replaceCalls name resolve true (run ++ s) = .ok (run ++ s) := by
  induction callScan name hrun s with
  | done hrun =>
    rw [List.append_nil]
    exact replaceCalls_of_isRun hrun true
  | continued hrun hc _ ih =>
    rw [closesFirst_continued hc] at h
    rw [List.append_cons]
    exact ih (hrun.concat hc) h
  | passed hrun hc hpass _ ih =>
    rw [closesFirst_passed hc hpass] at h
    rw [replaceCalls_passed hname hne hrun hc hpass, ih isRun_nil h]
    rfl
  | closed hcut =>
    rw [closesFirst_call, hcut] at h
    cases h
  | unclosed hcut => exact replaceCalls_unclosed hname hne hcut

/-- Where what is written has no more characters of a kind than the arguments, a closed call takes one
away, if the parenthesis is of that kind. -/
theorem countP_replaceCalls {p : Char → Bool} (hparen : p '(')
    (hresolve : ∀ args value, resolve args = .ok value → value.countP p ≤ args.countP p)
    (hrun : IsRun run) (h : replaceCalls name resolve true (run ++ s) = .ok out) :
    out.countP p ≤ (run ++ s).countP p ∧
      (closesFirst name run s → out.countP p < (run ++ s).countP p) := by
  induction callScan name hrun s generalizing out with
  | done hrun =>
    rw [List.append_nil, replaceCalls_of_isRun hrun] at h
    cases h
    rw [List.append_nil]
    exact ⟨Nat.le_refl _, nofun⟩
  | continued hrun hc _ ih =>
    rw [List.append_cons] at h ⊢
    rw [closesFirst_continued hc]
    exact ih (hrun.concat hc) h
  | passed hrun hc hpass _ ih =>
    rw [replaceCalls_passed hname hne hrun hc hpass] at h
    obtain ⟨tail, htail, rfl⟩ := map_eq_ok.1 h
    obtain ⟨hle, hlt⟩ := ih isRun_nil htail
    rw [closesFirst_passed hc hpass]
    simp only [List.countP_append, List.countP_cons, List.nil_append] at hle hlt ⊢
    exact ⟨by omega, fun hclosed => by have := hlt hclosed; omega⟩
  | closed hcut _ ih =>
    rw [replaceCalls_call hname hne hcut] at h
    obtain ⟨value, hvalue, h⟩ := bind_eq_ok.1 h
    obtain ⟨tail, htail, h⟩ := bind_eq_ok.1 h
    cases h
    have hargs := hresolve _ value hvalue
    obtain ⟨hle, -⟩ := ih isRun_nil htail
    rw [← append_of_cutCall hcut]
    simp only [List.countP_append, List.countP_cons, List.nil_append, hparen, if_true] at hle ⊢
    exact ⟨by omega, fun _ => by omega⟩
  | unclosed hcut =>
    rw [replaceCalls_unclosed hname hne hcut] at h
    cases h
    rw [closesFirst_call, hcut]
    exact ⟨Nat.le_refl _, nofun⟩

/-- Behind a text with all calls closed, a text in quotes that opens no call stands as it is between
what is made of the text in front and of the one behind. -/
theorem replaceCalls_around {quote : Char} {body : List Char} (hmem : name ∈ names)
    (hquote : continuesName quote = false) (hparen : quote ≠ '(')
    (hbody : opensCall names [] body = false) (hrun : IsRun run) (h : closesAll name run s) :
    replaceCalls name resolve true (run ++ (s ++ (quote :: body ++ quote :: t))) = (do
      let x ← replaceCalls name resolve true (run ++ s)
      let y ← replaceCalls name resolve true t
      .ok (x ++ (quote :: body ++ quote :: y))) := by
  induction callScan name hrun s with
  | done hrun =>
    have hopens (run : List Char) : opensCall names run (quote :: body) = false := by
      rw [opensCall, nextRun, hquote, beq_false_of_ne hparen]
      exact hbody
    rw [List.nil_append, replaceCalls_append hname hne hmem hrun (hopens _) hquote hparen,
      List.append_nil, replaceCalls_of_isRun hrun]
    cases replaceCalls name resolve true t <;> rfl
  | @continued run s c hrun hc _ ih =>
    rw [closesAll_continued hc] at h
    rw [List.cons_append, List.append_cons, List.append_cons run c s]
    exact ih (hrun.concat hc) h
  | passed hrun hc hpass _ ih =>
    rw [closesAll_passed hc hpass] at h
    rw [List.cons_append, replaceCalls_passed hname hne hrun hc hpass,
      replaceCalls_passed hname hne hrun hc hpass, ih isRun_nil h]
    cases replaceCalls name resolve true ([] ++ _) with
    | error => rfl
    | ok x =>
      cases replaceCalls name resolve true t with
      | error => rfl
      | ok y => simp [Except.map, bind, Except.bind]
  | @closed s args behind hcut _ ih =>
    rw [closesAll_closed hcut] at h
    have hcut' : cutCall ['"', '\''] 0 none (s ++ (quote :: body ++ quote :: t)) =
        some (args, behind ++ (quote :: body ++ quote :: t)) := by
      rw [← append_of_cutCall hcut, List.append_assoc]
      exact cutCall_append _ hcut
    have hrest := ih isRun_nil h
    rw [List.nil_append, List.nil_append] at hrest
    rw [List.cons_append, replaceCalls_call hname hne hcut', replaceCalls_call hname hne hcut, hrest]
    cases resolve args with
    | error => rfl
    | ok value =>
      cases replaceCalls name resolve true behind with
      | error => rfl
      | ok x =>
        cases replaceCalls name resolve true t with
        | error => rfl
        | ok y => simp [bind, Except.bind]
  | unclosed hcut =>
    rw [closesAll_unclosed hcut] at h
    cases h

end Scan

section Closing

variable {names : List (List Char)} {run s : List Char}

/-- Every call can be closed, by the quote that is open and parentheses. -/
theorem exists_closing (s : List Char) (depth : Nat) (quote : Option Char)
    (hquote : quote ≠ some '(') :
    ∃ t, '(' ∉ t ∧ (cutCall ['"', '\''] depth quote (s ++ t)).isSome := by
  have hplain : none ≠ some '(' := (Option.some_ne_none '(').symm
  induction s generalizing depth quote with
  | nil =>
    have hdepth : ∃ t, '(' ∉ t ∧ (cutCall ['"', '\''] depth none t).isSome := by
      induction depth with
      | zero => exact ⟨[')'], by decide, rfl⟩
      | succ depth ih =>
        obtain ⟨t, ht, hcut⟩ := ih
        exact ⟨')' :: t, by simpa using ht, Option.isSome_map.trans hcut⟩
    obtain ⟨t, ht, hcut⟩ := hdepth
    cases quote with
    | none => exact ⟨t, ht, hcut⟩
    | some q =>
      have hq : '(' ≠ q := fun h => hquote (congrArg some h.symm)
      refine ⟨q :: t, by simp [hq, ht], ?_⟩
      rw [List.nil_append, cutCall, beq_self_eq_true, if_pos rfl]
      exact Option.isSome_map.trans hcut
  | cons c s ih =>
    cases quote with
    | some q =>
      have hnext : (if c == q then none else some q) ≠ some '(' := by
        split
        · exact hplain
        · exact hquote
      obtain ⟨t, ht, hcut⟩ := ih depth _ hnext
      exact ⟨t, ht, Option.isSome_map.trans hcut⟩
    | none =>
      simp only [List.cons_append, cutCall_cons]
      split
      · next hmem =>
        have hc : some c ≠ some '(' := by
          rintro ⟨⟩
          exact absurd hmem (by decide)
        obtain ⟨t, ht, hcut⟩ := ih depth _ hc
        exact ⟨t, ht, Option.isSome_map.trans hcut⟩
      · split
        · obtain ⟨t, ht, hcut⟩ := ih (depth + 1) none hplain
          exact ⟨t, ht, Option.isSome_map.trans hcut⟩
        · split
          · cases depth with
            | zero => exact ⟨[], List.not_mem_nil, rfl⟩
            | succ depth =>
              obtain ⟨t, ht, hcut⟩ := ih depth none hplain
              exact ⟨t, ht, Option.isSome_map.trans hcut⟩
          · obtain ⟨t, ht, hcut⟩ := ih depth none hplain
            exact ⟨t, ht, Option.isSome_map.trans hcut⟩

/-- A text that opens a call is the beginning of one whose first call of some function is closed. -/
theorem exists_closesFirst (h : opensCall names run s) :
    ∃ name ∈ names, ∃ t, '(' ∉ t ∧ closesFirst name run (s ++ t) := by
  induction s generalizing run with
  | nil => cases h
  | cons c s ih =>
    by_cases hcall : c = '(' ∧ run ∈ names
    · obtain ⟨rfl, hmem⟩ := hcall
      obtain ⟨t, ht, hcut⟩ := exists_closing s 0 none (Option.some_ne_none '(').symm
      exact ⟨run, hmem, t, ht, closesFirst_call.trans hcut⟩
    · have hopens : (c == '(' && names.contains run) = false := by simpa using hcall
      rw [opensCall, hopens, Bool.false_or] at h
      obtain ⟨name, hname, t, ht, hcloses⟩ := ih h
      have hother : ¬ (c == '(' && run == name) := by
        rw [Bool.and_eq_true, beq_iff_eq, beq_iff_eq]
        rintro ⟨hc, rfl⟩
        exact hcall ⟨hc, hname⟩
      refine ⟨name, hname, t, ht, ?_⟩
      rw [List.cons_append, closesFirst, if_neg hother]
      exact hcloses

end Closing

end Chars

end UtilityCss
