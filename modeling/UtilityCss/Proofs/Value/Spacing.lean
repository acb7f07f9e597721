import UtilityCss.Proofs.Text.Find
import UtilityCss.Proofs.Value.Span

/-!
# Spaces around operators

The scan that spaces operators writes each character that it reads, and besides only spaces, next to
operators in the parentheses of a mathematical function. So the reading of an arbitrary value loses
nothing, and a text without calls of such functions is left as it is.
-/

namespace UtilityCss

namespace Chars

/-- Whether no word goes on at a character. -/
def endsWord (c : Char) : Bool := c == '(' || c == ')' || c == ',' || isBlank c

/-- Whether the word at the end of what has been read, last character first, names a mathematical
function. What stands in front of its first letter or digit is not of the name. -/
def namesMath (read : List Char) : Bool :=
  mathFunctions.contains
    (String.ofList ((read.takeWhile (! endsWord ·)).reverse.dropWhile (! isAlphanumeric ·)))

/-- What had been read in front of each parenthesis that is open now, innermost first. -/
def openCalls : List Char → List (List Char)
  | [] => []
  | c :: read =>
    if c == '(' then read :: openCalls read
    else if c == ')' then (openCalls read).tail
    else openCalls read

/-- Whether what has been read stops in the parentheses of a mathematical function. -/
def inMathCall (read : List Char) : Bool := (openCalls read).any namesMath

/-- Whether a text is another one with spaces put next to some of its characters, those that `may`
allows behind what has been read in front of them. -/
inductive Spaced (may : List Char → Char → Prop) : List Char → List Char → List Char → Prop
  | nil {read : List Char} : Spaced may read [] []
  | kept {read s r : List Char} {c : Char} (h : Spaced may (c :: read) s r) :
      Spaced may read (c :: s) (c :: r)
  | spaced {read s r w : List Char} {c : Char} (hc : may read c)
      (hw : w ∈ [[' ', c], [c, ' '], [' ', c, ' ']]) (h : Spaced may (c :: read) s r) :
      Spaced may read (c :: s) (w ++ r)

section Spaced

variable {may : List Char → Char → Prop} {read s r : List Char}

theorem spaced_self (may : List Char → Char → Prop) (read s : List Char) : Spaced may read s s := by
  induction s generalizing read with
  | nil => exact .nil
  | cons c s ih => exact .kept (ih _)

/-- Putting in spaces changes nothing but spaces. -/
theorem Spaced.filter_eq (h : Spaced may read s r) : r.filter (· != ' ') = s.filter (· != ' ') := by
  induction h with
  | nil => rfl
  | kept h ih => rw [List.filter_cons, List.filter_cons, ih]
  | @spaced read s r w c hc hw h ih =>
    have hchar : w.filter (· != ' ') = [c].filter (· != ' ') := by
      simp only [List.mem_cons, List.not_mem_nil, or_false] at hw
      rcases hw with rfl | rfl | rfl <;> simp [List.filter_cons]
    rw [List.filter_append, hchar, ih, ← List.filter_append, List.singleton_append]

theorem Spaced.eq_self (h : Spaced may read s r)
    (hnone : ∀ before behind c, s = before ++ c :: behind → ¬ may (before.reverse ++ read) c) :
    r = s := by
  induction h with
  | nil => rfl
  | @kept read s r c h ih =>
    refine congrArg (c :: ·) (ih fun before behind d heq => ?_)
    have hd := hnone (c :: before) behind d (by rw [heq, List.cons_append])
    simpa using hd
  | @spaced read s r w c hc hw h ih => exact absurd hc (hnone [] s c rfl)

end Spaced

end Chars

namespace MathScan

def runTo (next : Option Char) : MathScan → List Char → MathScan
  | st, [] => st
  | st, c :: s => runTo next (st.step c (s.head?.or next)) s

section Step

variable {may : List Char → Char → Prop} {I : List Char → MathScan → Prop} {read : List Char}
  {st : MathScan} {c : Char} {next : Option Char}

theorem run_eq_runTo (st : MathScan) (s : List Char) : st.run s = runTo none st s := by
  induction s generalizing st with
  | nil => rfl
  | cons c s ih => rw [run, runTo, ih, Option.or_none]

theorem runTo_append (next : Option Char) (st : MathScan) (s t : List Char) :
    runTo next st (s ++ t) = runTo next (runTo (t.head?.or next) st s) t := by
  induction s generalizing st with
  | nil => rfl
  | cons c s ih => rw [List.cons_append, runTo, runTo, ih, List.head?_append, Option.or_assoc]

private theorem written_writeSpaced (st : MathScan) (c : Char) (next : Option Char) :
    (st.writeSpaced c next).written = c :: st.written ∨
      ∃ w ∈ [[' ', c], [c, ' '], [' ', c, ' ']],
        (st.writeSpaced c next).written = w.reverse ++ st.written := by
  rw [writeSpaced]
  split
  · split
    · exact .inl rfl
    · exact .inr ⟨[' ', c], by simp, rfl⟩
  · split
    · exact .inr ⟨[c, ' '], by simp, rfl⟩
    · exact .inr ⟨[' ', c, ' '], by simp, rfl⟩

/-- An operator in a mathematical expression is written with at most one space on either side, and any
other character on its own. -/
theorem written_step (st : MathScan) (c : Char) (next : Option Char) :
    (st.step c next).written = c :: st.written ∨
      (isOperator c ∧ st.inMath) ∧ ∃ w ∈ [[' ', c], [c, ' '], [' ', c, ' ']],
        (st.step c next).written = w.reverse ++ st.written := by
  rw [step]
  split
  · exact .inl rfl
  · split
    · exact .inl rfl
    · split
      · next h =>
        rw [stepOperator]
        split
        · exact .inl rfl
        · split
          · exact .inl rfl
          · exact (written_writeSpaced st c next).imp_right fun hw => ⟨Bool.and_eq_true_iff.1 h, hw⟩
      · split <;> exact .inl rfl

theorem opened_step (st : MathScan) (c : Char) (next : Option Char) : (st.step c next).opened =
    if c == '(' then st.opensMath :: st.opened else if c == ')' then st.opened.tail
    else st.opened := by
  rw [step]
  split
  · rfl
  · split
    · rfl
    · split
      · rw [stepOperator]
        split
        · rfl
        · split
          · rfl
          · rw [writeSpaced]
            split <;> split <;> rfl
      · split <;> rfl

/-- Outside of mathematical expressions an operator does not end a word. -/
theorem word_step (h : ¬ (isOperator c ∧ st.inMath)) (next : Option Char) :
    (st.step c next).word = if Chars.endsWord c then [] else c :: st.word := by
  rw [step, if_neg (c := (isOperator c && st.inMath) = true) (by rwa [Bool.and_eq_true])]
  simp only [Chars.endsWord, Bool.or_eq_true]
  split
  · simp_all [endWord]
  · split
    · simp_all [endWord]
    · split
      · simp_all [endWord]
      · simp_all [addToWord, write]

/-- Whatever keeps track of the scan, what is written is the text with spaces put in where the scan is
in a mathematical expression. -/
theorem exists_spaced (hstep : ∀ read st c next, I read st → I (c :: read) (step st c next))
    (hmay : ∀ read st c, I read st → isOperator c → st.inMath → may read c) (h : I read st)
    (next : Option Char) (s : List Char) :
    ∃ r, Chars.Spaced may read s r ∧ (runTo next st s).written = r.reverse ++ st.written := by
  induction s generalizing read st with
  | nil => exact ⟨[], .nil, rfl⟩
  | cons c s ih =>
    obtain ⟨r, hr, hwritten⟩ := ih (hstep read st c (s.head?.or next) h)
    rw [runTo, hwritten]
    rcases written_step st c (s.head?.or next) with heq | ⟨hc, w, hw, heq⟩
    · exact ⟨c :: r, .kept hr, by simp [heq]⟩
    · exact ⟨w ++ r, .spaced (hmay read st c h hc.1 hc.2) hw hr, by simp [heq]⟩

end Step

/-- Whether the state of the scan is what has been read: a parenthesis whose operators are spaced stands
in a call of a mathematical function, and as long as there is none, the word is the last one read. -/
structure Tracks (read : List Char) (st : MathScan) : Prop where
  covered : ∀ k, true ∈ st.opened.drop k → ((Chars.openCalls read).drop k).any Chars.namesMath
  word : true ∉ st.opened → st.word = read.takeWhile (! Chars.endsWord ·)

section Tracks

variable {read : List Char} {st : MathScan} {c : Char} {next : Option Char}

theorem mem_opened_of_inMath (h : st.inMath) : true ∈ st.opened := by
  rw [inMath] at h
  cases hopened : st.opened with
  | nil => simp [hopened] at h
  | cons b opened =>
    rw [hopened] at h
    exact h ▸ List.mem_cons_self

private theorem endsWord_of_isOperator (h : isOperator c) : Chars.endsWord c = false := by
  simp only [isOperator, Bool.or_eq_true, beq_iff_eq] at h
  rcases h with ((rfl | rfl) | rfl) | rfl <;> decide

private theorem tracks_start : Tracks [] {} := ⟨fun k h => by simp at h, fun _ => rfl⟩

theorem Tracks.inMathCall (h : Tracks read st) (hmem : true ∈ st.opened) :
    Chars.inMathCall read := h.covered 0 hmem

/-- A parenthesis opens a mathematical expression only in a call of a mathematical function. -/
theorem Tracks.opensMath (h : Tracks read st) (hopens : st.opensMath) :
    (read :: Chars.openCalls read).any Chars.namesMath := by
  rw [List.any_cons, Bool.or_eq_true]
  by_cases hmem : true ∈ st.opened
  · exact .inr (h.inMathCall hmem)
  · have hinMath : st.inMath = false :=
      Bool.eq_false_iff.2 fun hinMath => hmem (mem_opened_of_inMath hinMath)
    rw [MathScan.opensMath, hinMath, Bool.and_false, Bool.or_false, h.word hmem] at hopens
    exact .inl hopens

theorem Tracks.step (h : Tracks read st) (c : Char) (next : Option Char) :
    Tracks (c :: read) (st.step c next) := by
  refine ⟨fun k hk => ?_, fun hnone => ?_⟩
  · rw [opened_step] at hk
    rw [Chars.openCalls]
    split at hk
    · next hopen =>
      rw [if_pos hopen]
      cases k with
      | zero =>
        rcases List.mem_cons.1 hk with hopens | hmem
        · exact h.opensMath hopens.symm
        · exact List.any_cons ▸ Bool.or_eq_true_iff.2 (.inr (h.inMathCall hmem))
      | succ k => exact h.covered k hk
    · next hopen =>
      rw [if_neg hopen]
      split at hk
      · next hclose =>
        rw [List.drop_tail] at hk
        rw [if_pos hclose, List.drop_tail]
        exact h.covered (k + 1) hk
      · next hclose =>
        rw [if_neg hclose]
        exact h.covered k hk
  · rw [opened_step] at hnone
    have hword (hc : ¬ Chars.endsWord c) : true ∉ st.opened := by
      simp only [Chars.endsWord, Bool.or_eq_true, not_or] at hc
      rwa [if_neg hc.1.1.1, if_neg hc.1.1.2] at hnone
    have hplain : ¬ (isOperator c ∧ st.inMath) := fun ⟨hc, hinMath⟩ =>
      hword (Bool.eq_false_iff.1 (endsWord_of_isOperator hc)) (mem_opened_of_inMath hinMath)
    rw [word_step hplain, List.takeWhile_cons]
    by_cases hc : Chars.endsWord c
    · simp [hc]
    · simp [hc, h.word (hword hc)]

end Tracks

end MathScan

namespace Chars

/-- Whether a text calls a mathematical function. -/
def HasMathCall (s : List Char) : Prop :=
  ∃ before behind, s = before ++ '(' :: behind ∧ namesMath before.reverse

section Result

variable {s u read : List Char}

/-- Spaces are put in next to operators in calls of mathematical functions only. -/
theorem spaced_spaceOperators (s : List Char) :
    Spaced (fun read c => MathScan.isOperator c ∧ inMathCall read) [] s (spaceOperators s) := by
  obtain ⟨r, hr, hwritten⟩ :
      ∃ r, Spaced (fun read c => MathScan.isOperator c ∧ inMathCall read) [] s r ∧
        (MathScan.runTo none {} s).written = r.reverse ++ [] :=
    MathScan.exists_spaced (I := MathScan.Tracks) (fun _ _ c next h => h.step c next)
      (fun _ _ _ h hc hinMath => ⟨hc, h.inMathCall (MathScan.mem_opened_of_inMath hinMath)⟩)
      MathScan.tracks_start none s
  rw [spaceOperators, MathScan.run_eq_runTo, hwritten]
  simpa using hr

private theorem exists_of_mem_openCalls (h : u ∈ openCalls read) : ∃ w, read = w ++ '(' :: u := by
  induction read with
  | nil => cases h
  | cons c read ih =>
    have hbehind (h : u ∈ openCalls read) : ∃ w, c :: read = w ++ '(' :: u := by
      obtain ⟨w, hw⟩ := ih h
      exact ⟨c :: w, congrArg (c :: ·) hw⟩
    rw [openCalls] at h
    split at h
    · next hc =>
      rcases List.mem_cons.1 h with rfl | h
      · exact ⟨[], by simpa using hc⟩
      · exact hbehind h
    · split at h
      · exact hbehind (List.mem_of_mem_tail h)
      · exact hbehind h

theorem spaceOperators_eq_self (h : ¬ HasMathCall s) : spaceOperators s = s := by
  refine (spaced_spaceOperators s).eq_self fun before behind c heq hc => h ?_
  obtain ⟨u, hu, hname⟩ := List.any_eq_true.1 hc.2
  obtain ⟨w, hw⟩ := exists_of_mem_openCalls hu
  rw [List.append_nil, List.reverse_eq_iff] at hw
  refine ⟨u.reverse, w.reverse ++ c :: behind, ?_, by rwa [List.reverse_reverse]⟩
  rw [heq, hw]
  simp

/-- A call of a mathematical function is found by its name and parenthesis. -/
theorem callsMath_of_hasMathCall (h : HasMathCall s) : callsMath s := by
  obtain ⟨before, behind, rfl, hname⟩ := h
  rw [namesMath, List.contains_iff_mem] at hname
  have hword : (before.reverse.takeWhile (! endsWord ·)).reverse <:+ before.reverse.reverse :=
    List.reverse_suffix.2 (List.takeWhile_prefix _)
  rw [List.reverse_reverse] at hword
  obtain ⟨u, hu⟩ := (List.dropWhile_suffix (! isAlphanumeric ·)).trans hword
  refine List.any_eq_true.2 ⟨_, hname, cutPhrase_isSome_iff.2 ⟨u, behind, ?_⟩⟩
  rw [String.toList_ofList, ← List.append_assoc, hu, List.append_assoc, List.singleton_append]

/-- The operators of a value are spaced after its underscores are read, unless it begins and ends as a
call of `url`. -/
theorem decodeArbitrary_eq (h : isUrl s = false) :
    decodeArbitrary s = spaceOperators (decodedSpans s) := by
  rw [decodeArbitrary, h, if_neg Bool.false_ne_true, decodeUnderscores_eq]
  simp only
  split
  · rfl
  · next hcalls => exact (spaceOperators_eq_self (mt callsMath_of_hasMathCall hcalls)).symm

end Result

end Chars

section Lossless

variable {s : String}

theorem isUrl_toList_iff :
    Chars.isUrl s.toList ↔ Text.startsWith s "url(" ∧ Text.endsWith s ")" := by
  have hlast : s.toList.getLast? = some ')' ↔ Text.endsWith s ")" := by
    rw [List.getLast?_eq_some_iff, Text.endsWith, List.isSuffixOf_iff_suffix]
    exact exists_congr fun _ => eq_comm
  rw [Chars.isUrl, Bool.and_eq_true, beq_iff_eq, hlast]
  rfl

/-- The reading of a value that does not both begin and end as a call of `url` loses no character: up
to spaces it is the value with its underscores read outside of such calls. Spaces are put in only next
to operators in the parentheses of a mathematical function, so there are none without a call of one. -/
theorem decodeArbitrary_lossless (h : ¬ (Text.startsWith s "url(" ∧ Text.endsWith s ")")) :
    (decodeArbitrary s).toList.filter (· != ' ') =
        (Chars.decodedSpans s.toList).filter (· != ' ') ∧
      Chars.Spaced (fun read c => MathScan.isOperator c ∧ Chars.inMathCall read) []
        (Chars.decodedSpans s.toList) (decodeArbitrary s).toList ∧
      (¬ Chars.HasMathCall (Chars.decodedSpans s.toList) →
        (decodeArbitrary s).toList = Chars.decodedSpans s.toList) := by
  rw [decodeArbitrary, String.toList_ofList,
    Chars.decodeArbitrary_eq (Bool.eq_false_iff.2 (mt isUrl_toList_iff.1 h))]
  have hspaced := Chars.spaced_spaceOperators (Chars.decodedSpans s.toList)
  exact ⟨hspaced.filter_eq, hspaced, Chars.spaceOperators_eq_self⟩

/-- A dash in a call of a function gets spaces, and the underscore and the dash of the address stay. -/
theorem decodeArbitrary_lossless_calc :
    decodeArbitrary "calc(9px-1px)_url(a_b-c)" = "calc(9px - 1px) url(a_b-c)" ∧
      (decodeArbitrary "calc(9px-1px)_url(a_b-c)").toList.filter (· != ' ') =
        "calc(9px-1px)url(a_b-c)".toList := by
  have hspans : Chars.decodedSpans "calc(9px-1px)_url(a_b-c)".toList =
      "calc(9px-1px) url(a_b-c)".toList := by
    decide +kernel
  have hlossless := (@decodeArbitrary_lossless "calc(9px-1px)_url(a_b-c)" (by decide)).1
  rw [hspans] at hlossless
  exact ⟨by decide +kernel, hlossless.trans (by decide)⟩

end Lossless

end UtilityCss
