import UtilityCss.Proofs.Text.Call
import UtilityCss.Value.Arbitrary

/-!
# The spans of an arbitrary value

An arbitrary value consists of calls of `url` and of the texts between them. A call reaches up to the
parenthesis that closes it, or to the end if there is none. Underscores are read in the texts, and
the calls stay as they are.
-/

namespace UtilityCss

namespace Chars

/-- A part of an arbitrary value: a call of `url`, or a text outside of such. -/
inductive Span where
  | text (s : List Char)
  | url (s : List Char)
deriving DecidableEq

def Span.raw : Span → List Char
  | text s => s
  | url s => s

/-- A text with each underscore read as a space, apart from those behind a backslash. -/
def readUnderscores : List Char → List Char
  | [] => []
  | '\\' :: '_' :: s => '_' :: readUnderscores s
  | c :: s => (if c == '_' then ' ' else c) :: readUnderscores s

def Span.decoded : Span → List Char
  | text s => readUnderscores s
  | url s => s

def addChar (c : Char) : List Span → List Span
  | .text s :: spans => .text (c :: s) :: spans
  | spans => .text [c] :: spans

/-- The spans of a value. -/
def spans : List Char → List Span
  | [] => []
  | 'u' :: 'r' :: 'l' :: '(' :: s =>
    match h : cutCall [] 0 none s with
    | none => [.url ('u' :: 'r' :: 'l' :: '(' :: s)]
    | some (args, rest) =>
      have := congrArg List.length (append_of_cutCall h)
      .url ('u' :: 'r' :: 'l' :: '(' :: (args ++ [')'])) :: spans rest
  | c :: s => addChar c (spans s)
termination_by s => s.length
decreasing_by
  all_goals
    simp only [List.length_append, List.length_cons] at *
    omega

/-- A value with its underscores read outside of the calls of `url`. -/
def decodedSpans (s : List Char) : List Char := (spans s).flatMap Span.decoded

section Depth

variable {d d' : Nat} {c : Char} {s t args rest : List Char}

/-- The search for the parenthesis that closes a call counts parentheses as the reading of underscores
does. -/
theorem cutCall_eq (d : Nat) (c : Char) (s : List Char) : cutCall [] d none (c :: s) =
    (urlDepth d c).elim (some ([], s)) fun k =>
      (cutCall [] k none s).map fun p => (c :: p.1, p.2) := by
  rw [cutCall_cons, if_neg (by simp), urlDepth]
  split
  · rfl
  · split
    · cases d <;> rfl
    · rfl

private theorem urlDepth_eq_none_iff : urlDepth d c = none ↔ d = 0 ∧ c = ')' := by
  rw [urlDepth]
  split
  · simp_all
  · split
    · cases d <;> simp_all
    · simp_all

/-- Up to the parenthesis that closes a call, all that is opened is closed. -/
theorem foldlM_of_cutCall (h : cutCall [] d none s = some (args, rest)) :
    args.foldlM urlDepth d = some 0 := by
  induction s generalizing d args with
  | nil => cases h
  | cons c s ih =>
    rw [cutCall_eq] at h
    cases hdepth : urlDepth d c with
    | none =>
      rw [hdepth] at h
      obtain ⟨rfl, rfl⟩ := Prod.mk.inj (Option.some.inj h)
      exact congrArg some (urlDepth_eq_none_iff.1 hdepth).1
    | some k =>
      rw [hdepth] at h
      obtain ⟨⟨inner, rest'⟩, hcut, heq⟩ := Option.map_eq_some_iff.1 h
      obtain ⟨rfl, rfl⟩ := Prod.mk.inj heq
      rw [List.foldlM_cons, hdepth]
      exact ih hcut

/-- Within a call that is not closed, something stays open. -/
theorem exists_foldlM_of_cutCall (h : cutCall [] d none s = none) :
    ∃ k, s.foldlM urlDepth d = some k := by
  induction s generalizing d with
  | nil => exact ⟨d, rfl⟩
  | cons c s ih =>
    rw [cutCall_eq] at h
    cases hdepth : urlDepth d c with
    | none =>
      rw [hdepth] at h
      cases h
    | some k =>
      rw [hdepth] at h
      rw [List.foldlM_cons, hdepth]
      exact ih (Option.map_eq_none_iff.1 h)

/-- Where a call stays open, all is kept. -/
theorem decodeUnderscores_append (h : s.foldlM urlDepth d = some d') :
    decodeUnderscores (some d) (s ++ t) = s ++ decodeUnderscores (some d') t := by
  induction s generalizing d with
  | nil =>
    obtain rfl := Option.some.inj h
    rfl
  | cons c s ih =>
    rw [List.foldlM_cons] at h
    obtain ⟨k, hk, h⟩ := Option.bind_eq_some_iff.1 h
    rw [List.cons_append, decodeUnderscores, hk, ih h]
    rfl

end Depth

section Spans

variable {c : Char} {s : List Char} {ps : List Span}

@[simp]
theorem flatMap_raw_addChar (c : Char) (ps : List Span) :
    (addChar c ps).flatMap Span.raw = c :: ps.flatMap Span.raw := by
  rw [addChar.eq_def]
  split <;> rfl

theorem flatMap_raw_spans (s : List Char) : (spans s).flatMap Span.raw = s := by
  fun_induction spans s with
  | case1 => rfl
  | case2 s h => simp [Span.raw]
  | case3 s args rest h hlength ih => simp [Span.raw, ih, ← append_of_cutCall h]
  | case4 c s h ih => rw [flatMap_raw_addChar, ih]

/-- How spans follow each other: a text is not empty and not in front of another one, and a call that is
not closed is the last span. -/
inductive Ordered : List Span → Prop
  | nil : Ordered []
  | text {t : List Char} {ps : List Span} (ht : t ≠ []) (hnext : ∀ u, .text u ∉ ps.head?)
      (h : Ordered ps) : Ordered (.text t :: ps)
  | closed {args : List Char} {ps : List Span} (hargs : args.foldlM urlDepth 0 = some 0)
      (h : Ordered ps) : Ordered (.url ('u' :: 'r' :: 'l' :: '(' :: (args ++ [')'])) :: ps)
  | opened {s : List Char} {d : Nat} (hs : s.foldlM urlDepth 0 = some d) :
      Ordered [.url ('u' :: 'r' :: 'l' :: '(' :: s)]

theorem Ordered.addChar (h : Ordered ps) (c : Char) : Ordered (addChar c ps) := by
  cases h with
  | nil => exact .text (List.cons_ne_nil _ _) nofun .nil
  | text ht hnext h => exact .text (List.cons_ne_nil _ _) hnext h
  | closed hargs h => exact .text (List.cons_ne_nil _ _) nofun (.closed hargs h)
  | opened hs => exact .text (List.cons_ne_nil _ _) nofun (.opened hs)

theorem ordered_spans (s : List Char) : Ordered (spans s) := by
  fun_induction spans s with
  | case1 => exact .nil
  | case2 s h =>
    obtain ⟨d, hd⟩ := exists_foldlM_of_cutCall h
    exact .opened hd
  | case3 s args rest h hlength ih => exact .closed (foldlM_of_cutCall h) ih
  | case4 c s h ih => exact ih.addChar c

theorem readUnderscores_cons (h : c = '\\' → s.head? ≠ some '_') :
    readUnderscores (c :: s) = (if c == '_' then ' ' else c) :: readUnderscores s := by
  rw [readUnderscores]
  rintro t rfl rfl
  exact h rfl rfl

/-- A character is read on its own unless it is the backslash of an underscore. -/
theorem flatMap_decoded_addChar (hps : Ordered ps) (hraw : ps.flatMap Span.raw = s)
    (h : c = '\\' → s.head? ≠ some '_') : (addChar c ps).flatMap Span.decoded =
      (if c == '_' then ' ' else c) :: ps.flatMap Span.decoded := by
  have hsingle : readUnderscores [c] = [if c == '_' then ' ' else c] :=
    readUnderscores_cons fun _ => nofun
  cases hps with
  | nil => simp [Chars.addChar, Span.decoded, hsingle]
  | @text t ps ht hnext hps =>
    obtain ⟨d, t, rfl⟩ := List.exists_cons_of_ne_nil ht
    rw [← hraw] at h
    have hread : readUnderscores (c :: d :: t) = _ := readUnderscores_cons h
    simp [Chars.addChar, Span.decoded, hread]
  | closed hargs hps => simp [Chars.addChar, Span.decoded, hsingle]
  | opened hs => simp [Chars.addChar, Span.decoded, hsingle]

theorem flatMap_decoded_escape (ps : List Span) :
    (addChar '\\' (addChar '_' ps)).flatMap Span.decoded = '_' :: ps.flatMap Span.decoded := by
  match ps with
  | [] => rfl
  | .text _ :: _ => rfl
  | .url _ :: _ => rfl

/-- Underscores are read in the texts between the calls of `url`, and the calls are kept. -/
theorem decodeUnderscores_eq (s : List Char) : decodeUnderscores none s = decodedSpans s := by
  rw [decodedSpans]
  fun_induction spans s with
  | case1 => rfl
  | case2 s h =>
    obtain ⟨d, hd⟩ := exists_foldlM_of_cutCall h
    have hkept := decodeUnderscores_append (t := []) hd
    rw [List.append_nil] at hkept
    simp [decodeUnderscores, Span.decoded, hkept]
  | case3 s args rest h hlength ih =>
    have hkept := decodeUnderscores_append (t := ')' :: rest) (foldlM_of_cutCall h)
    rw [append_of_cutCall h] at hkept
    simp [decodeUnderscores, Span.decoded, hkept, urlDepth, ih]
  | case4 c s h ih =>
    by_cases hescape : c = '\\' ∧ s.head? = some '_'
    · obtain ⟨rfl, hhead⟩ := hescape
      obtain ⟨t, rfl⟩ := List.head?_eq_some_iff.1 hhead
      have hspans : spans ('_' :: t) = addChar '_' (spans t) := by
        rw [spans]
        rintro t ⟨⟩
      rw [hspans, flatMap_decoded_addChar (c := '_') (ordered_spans t) (flatMap_raw_spans t) nofun]
        at ih
      rw [hspans, flatMap_decoded_escape, ← (List.cons.inj ih).2]
      rfl
    · have hread := flatMap_decoded_addChar (c := c) (ordered_spans s) (flatMap_raw_spans s)
        fun hc hs => hescape ⟨hc, hs⟩
      rw [hread, ← ih, decodeUnderscores]
      · rintro t rfl rfl
        exact hescape ⟨rfl, rfl⟩
      · exact h

end Spans

end Chars

end UtilityCss
