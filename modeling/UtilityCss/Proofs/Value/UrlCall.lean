import UtilityCss.Proofs.Value.Spacing

/-!
# Calls of `url` in the reading of arbitrary values

The reading of a value keeps the calls of `url` apart from its second step: the scan that spaces
operators does not know where such calls were. What it does inside of one depends on nothing in front
of the call, so each call is written as if it stood alone. The reading therefore keeps all of them
exactly if the scan leaves each of them as it is, and it reads all underscores outside of them unless
the whole value is taken for one call.
-/

namespace UtilityCss

namespace MathScan

/-- A scan with more parentheses open around it and more written in front of it. -/
def above (st base : MathScan) : MathScan :=
  ⟨st.opened ++ base.opened, st.word, st.written ++ base.written⟩

/-- Whether a scan has read enough of its own to go on in the same way whatever stands in front of it:
a parenthesis is open, with `d` more of them in it, and two characters are written. -/
structure StandsAlone (d : Nat) (st : MathScan) : Prop where
  opened : st.opened.length = d + 1
  written : 2 ≤ st.written.length

section StandsAlone

variable {st base : MathScan} {c : Char} {next : Option Char} {d d' : Nat} {s : List Char}

theorem StandsAlone.inMath_above (h : StandsAlone d st) (base : MathScan) :
    (st.above base).inMath = st.inMath := by
  obtain ⟨b, opened, heq⟩ := List.exists_cons_of_length_eq_add_one h.opened
  rw [inMath, inMath, above, heq]
  rfl

private theorem StandsAlone.stepOperator_above (h : StandsAlone d st) (base : MathScan) (c : Char)
    (next : Option Char) :
    (st.above base).stepOperator c next = (st.stepOperator c next).above base := by
  obtain ⟨e, f, written, heq⟩ : ∃ e f w, st.written = e :: f :: w := by
    match hwritten : st.written, h.written with
    | e :: f :: w, _ => exact ⟨e, f, w, rfl⟩
  have hidentifier : (st.above base).inIdentifier next = st.inIdentifier next := rfl
  have hexponent : (st.above base).inExponent = st.inExponent := by
    rw [inExponent, inExponent, above, heq]
    rfl
  have hsign : (st.above base).atSign = st.atSign := by
    rw [atSign, atSign, above, heq]
    rfl
  have hspaced : (st.above base).writeSpaced c next = (st.writeSpaced c next).above base := by
    have hhead : (st.above base).written.head? = st.written.head? := by
      rw [above, heq]
      rfl
    rw [writeSpaced, writeSpaced, hhead]
    split <;> split <;> rfl
  rw [stepOperator, stepOperator, hidentifier, hexponent, hsign, hspaced]
  split
  · rfl
  · split <;> rfl

theorem StandsAlone.step_above (h : StandsAlone d st) (base : MathScan) (c : Char)
    (next : Option Char) : (st.above base).step c next = (st.step c next).above base := by
  have hopens : (st.above base).opensMath = st.opensMath := by
    rw [opensMath, opensMath, h.inMath_above]
    rfl
  have htail : (st.above base).opened.tail = st.opened.tail ++ base.opened :=
    List.tail_append_of_ne_nil (List.ne_nil_of_length_eq_add_one h.opened)
  rw [step, step, hopens, htail, h.inMath_above, h.stepOperator_above]
  split
  · rfl
  · split
    · rfl
    · split
      · rfl
      · split <;> rfl

private theorem length_written_step (st : MathScan) (c : Char) (next : Option Char) :
    st.written.length ≤ (st.step c next).written.length := by
  rcases written_step st c next with h | ⟨-, w, -, h⟩
  · simp [h]
  · simp [h]

theorem StandsAlone.step (h : StandsAlone d st) (hc : Chars.urlDepth d c = some d')
    (next : Option Char) : StandsAlone d' (st.step c next) := by
  refine ⟨?_, Nat.le_trans h.written (length_written_step st c next)⟩
  have hlength := h.opened
  rw [Chars.urlDepth] at hc
  rw [opened_step]
  split at hc
  · simp_all
  · split at hc
    · split at hc
      · cases hc
      · simp_all
        omega
    · simp_all

theorem StandsAlone.runTo (h : StandsAlone d st) (hs : s.foldlM Chars.urlDepth d = some d')
    (next : Option Char) : StandsAlone d' (runTo next st s) := by
  induction s generalizing d st with
  | nil =>
    obtain rfl := Option.some.inj hs
    exact h
  | cons c s ih =>
    rw [List.foldlM_cons] at hs
    obtain ⟨k, hk, hs⟩ := Option.bind_eq_some_iff.1 hs
    exact ih (h.step hk _) hs

/-- As long as its parenthesis is not closed, such a scan is not touched by what stands in front of it. -/
theorem StandsAlone.runTo_above (h : StandsAlone d st)
    (hs : s.foldlM Chars.urlDepth d = some d') (base : MathScan) (next : Option Char) :
    MathScan.runTo next (st.above base) s = (MathScan.runTo next st s).above base := by
  induction s generalizing d st with
  | nil => rfl
  | cons c s ih =>
    rw [List.foldlM_cons] at hs
    obtain ⟨k, hk, hs⟩ := Option.bind_eq_some_iff.1 hs
    rw [MathScan.runTo, MathScan.runTo, h.step_above, ih (h.step hk _) hs]

end StandsAlone

section Url

variable {st : MathScan} {s args : List Char} {c : Char} {d : Nat} {next : Option Char}

theorem opensMath_url {w : List Char} (h : st.word = 'l' :: 'r' :: 'u' :: w) :
    st.opensMath = false := by
  obtain ⟨v, hv⟩ : ∃ v, ((w.reverse ++ ['u', 'r', 'l']).dropWhile (! isAlphanumeric ·)) =
      v ++ ['u', 'r', 'l'] := by
    rw [List.dropWhile_append]
    split
    · exact ⟨[], by decide +kernel⟩
    · exact ⟨_, rfl⟩
  have hname : mathFunctions.contains (String.ofList (v ++ ['u', 'r', 'l'])) = false := by
    refine Bool.eq_false_iff.2 fun hmem => ?_
    have hnone : ∀ f ∈ mathFunctions, ¬ ['u', 'r', 'l'] <:+ f.toList := by decide
    exact hnone _ (List.contains_iff_mem.1 hmem) ⟨v, by rw [String.toList_ofList]⟩
  have hword : st.word.reverse = w.reverse ++ ['u', 'r', 'l'] := by simp [h]
  rw [opensMath, hword, hv, hname]
  simp

theorem step_plain (hc : Chars.endsWord c = false) (hop : isOperator c = false) :
    st.step c next = (st.write c).addToWord c := by
  simp only [Chars.endsWord, Bool.or_eq_false_iff] at hc
  simp [step, hc, hop]

def urlStart : MathScan := ⟨[false], [], ['(', 'l', 'r', 'u']⟩

theorem standsAlone_urlStart : StandsAlone 0 urlStart := ⟨rfl, by decide⟩

private theorem runTo_url (next : Option Char) (st : MathScan) (s : List Char) :
    runTo next st ('u' :: 'r' :: 'l' :: '(' :: s) =
      runTo next (urlStart.above ⟨st.opened, [], st.written⟩) s := by
  simp only [runTo]
  rw [step_plain (c := 'u') (by decide) (by decide), step_plain (c := 'r') (by decide) (by decide),
    step_plain (c := 'l') (by decide) (by decide), step,
    if_pos (beq_self_eq_true '('), opensMath_url rfl]
  rfl

theorem runTo_opened (next : Option Char) (st : MathScan) (hs : s.foldlM Chars.urlDepth 0 = some d) :
    runTo next st ('u' :: 'r' :: 'l' :: '(' :: s) =
      (runTo next urlStart s).above ⟨st.opened, [], st.written⟩ := by
  rw [runTo_url, standsAlone_urlStart.runTo_above hs]

theorem runTo_closed (next : Option Char) (st : MathScan)
    (hargs : args.foldlM Chars.urlDepth 0 = some 0) :
    runTo next st ('u' :: 'r' :: 'l' :: '(' :: (args ++ [')'])) =
      ((runTo (some ')') urlStart args).step ')' none).above ⟨st.opened, [], st.written⟩ := by
  have halone := standsAlone_urlStart.runTo hargs (some ')')
  rw [← List.cons_append, ← List.cons_append, ← List.cons_append, ← List.cons_append, runTo_append,
    List.head?_cons, Option.some_or, runTo_opened _ _ hargs, ← halone.step_above]
  rfl

end Url

end MathScan

namespace Chars

section Alone

variable {s args : List Char} {d : Nat}

theorem spaceOperators_eq (s : List Char) :
    spaceOperators s = (MathScan.runTo none {} s).written.reverse := by
  rw [spaceOperators, MathScan.run_eq_runTo]

theorem written_opened (st : MathScan) (hs : s.foldlM urlDepth 0 = some d) :
    (MathScan.runTo none st ('u' :: 'r' :: 'l' :: '(' :: s)).written =
      (spaceOperators ('u' :: 'r' :: 'l' :: '(' :: s)).reverse ++ st.written := by
  rw [spaceOperators_eq, MathScan.runTo_opened none st hs, MathScan.runTo_opened none {} hs]
  simp [MathScan.above]

private theorem written_closed (next : Option Char) (st : MathScan)
    (hargs : args.foldlM urlDepth 0 = some 0) :
    (MathScan.runTo next st ('u' :: 'r' :: 'l' :: '(' :: (args ++ [')']))).written =
      (spaceOperators ('u' :: 'r' :: 'l' :: '(' :: (args ++ [')']))).reverse ++ st.written := by
  rw [spaceOperators_eq, MathScan.runTo_closed next st hargs, MathScan.runTo_closed none {} hargs]
  simp [MathScan.above]

theorem head?_spaceOperators (s : List Char) :
    (spaceOperators ('u' :: s)).head? = some 'u' := by
  generalize hr : spaceOperators ('u' :: s) = r
  have hspaced := spaced_spaceOperators ('u' :: s)
  rw [hr] at hspaced
  cases hspaced with
  | kept h => rfl
  | spaced hc hw h => exact absurd hc.1 (by decide)

private theorem getLast?_spaceOperators (s : List Char) :
    (spaceOperators (s ++ [')'])).getLast? = some ')' := by
  rw [spaceOperators_eq, MathScan.runTo_append, List.getLast?_reverse]
  rfl

end Alone

/-- Whether a text is written for a span: a text with its underscores read and with spaces put next to
operators, and `f` of a call of `url`. -/
def Span.WrittenAs (f : List Char → List Char) : Span → List Char → Prop
  | text s, r => Spaced (fun _ c => MathScan.isOperator c) [] (readUnderscores s) r
  | url s, r => r = f s

/-- Whether a text consists of what is written for the spans of a list, one after the other. -/
def ReadsAs (f : List Char → List Char) : List Span → List Char → Prop
  | [], r => r = []
  | p :: ps, r => ∃ o rest, r = o ++ rest ∧ p.WrittenAs f o ∧ ReadsAs f ps rest

section ReadsAs

variable {f : List Char → List Char} {ps : List Span} {a b a' b' r t u : List Char}

/-- The scan writes each call of `url` as if it stood alone. -/
theorem exists_readsAs (h : Ordered ps) (st : MathScan) :
    ∃ r, ReadsAs spaceOperators ps r ∧
      (MathScan.runTo none st (ps.flatMap Span.decoded)).written = r.reverse ++ st.written := by
  induction h generalizing st with
  | nil => exact ⟨[], rfl, rfl⟩
  | @text t ps ht hnext h ih =>
    rw [List.flatMap_cons, MathScan.runTo_append, Option.or_none]
    generalize (ps.flatMap Span.decoded).head? = next
    obtain ⟨o, ho, hwritten⟩ : ∃ o, Spaced (fun _ c => MathScan.isOperator c) []
        (Span.decoded (.text t)) o ∧
        (MathScan.runTo next st (Span.decoded (.text t))).written = o.reverse ++ st.written :=
      MathScan.exists_spaced (I := fun _ _ => True) (fun _ _ _ _ _ => trivial)
        (fun _ _ _ _ hc _ => hc) trivial next _
    obtain ⟨rest, hrest, heq⟩ := ih (MathScan.runTo next st (Span.decoded (.text t)))
    exact ⟨o ++ rest, ⟨o, rest, rfl, ho, hrest⟩, by simp [heq, hwritten]⟩
  | @closed args ps hargs h ih =>
    rw [List.flatMap_cons, MathScan.runTo_append, Option.or_none]
    generalize (ps.flatMap Span.decoded).head? = next
    obtain ⟨rest, hrest, heq⟩ := ih (MathScan.runTo next st (Span.decoded (.url _)))
    refine ⟨_, ⟨_, rest, rfl, rfl, hrest⟩, ?_⟩
    rw [heq, Span.decoded, written_closed next st hargs]
    simp
  | @opened s d hs =>
    refine ⟨_, ⟨_, [], rfl, rfl, rfl⟩, ?_⟩
    simpa [Span.decoded] using written_opened st hs

theorem readsAs_spaceOperators (s : List Char) :
    ReadsAs spaceOperators (spans s) (spaceOperators (decodedSpans s)) := by
  obtain ⟨r, hr, hwritten⟩ := exists_readsAs (ordered_spans s) {}
  rw [spaceOperators_eq, decodedSpans, hwritten]
  simpa using hr

/-- A text that goes on with spaces only is longer than without them, unless there are none. -/
theorem append_eq_self_of_filter {x : List Char}
    (hfilter : (a ++ x).filter (· != ' ') = a.filter (· != ' '))
    (hcut : (a ++ x).getLast? ≠ some ' ' ∨ (x ++ b).head? ≠ some ' ') : x = [] := by
  rw [List.filter_append, List.append_right_eq_self, List.filter_eq_nil_iff] at hfilter
  refine Classical.byContradiction fun hx => ?_
  have hspace (c : Char) (hc : c ∈ x) : c = ' ' := by simpa using hfilter c hc
  rcases hcut with hlast | hhead
  · rw [List.getLast?_append, List.getLast?_eq_some_getLast hx, Option.some_or,
      hspace _ (List.getLast_mem hx)] at hlast
    exact hlast rfl
  · rw [List.head?_append, List.head?_eq_some_head hx, Option.some_or,
      hspace _ (List.head_mem hx)] at hhead
    exact hhead rfl

/-- Two ways to cut a text in two at the same place up to spaces are the same where no space is next to
the cut. -/
theorem eq_of_append_eq (h : a ++ b = a' ++ b')
    (hfilter : a.filter (· != ' ') = a'.filter (· != ' '))
    (hcut : a.getLast? ≠ some ' ' ∨ b'.head? ≠ some ' ')
    (hcut' : a'.getLast? ≠ some ' ' ∨ b.head? ≠ some ' ') : a = a' := by
  rcases List.append_eq_append_iff.1 h with ⟨x, rfl, rfl⟩ | ⟨x, rfl, rfl⟩
  · rw [append_eq_self_of_filter hfilter.symm hcut', List.append_nil]
  · rw [append_eq_self_of_filter hfilter hcut, List.append_nil]

theorem ReadsAs.head?_eq {c : Char} (h : ReadsAs f (.url u :: ps) r) (hu : (f u).head? = some c) :
    r.head? = some c := by
  obtain ⟨o, rest, rfl, rfl, hrest⟩ := h
  rw [List.head?_append, hu, Option.some_or]

theorem Ordered.head?_eq (h : Ordered (.url u :: ps)) :
    u.head? = some 'u' ∧ (spaceOperators u).head? = some 'u' := by
  cases h with
  | closed hargs h => exact ⟨rfl, head?_spaceOperators _⟩
  | opened hs => exact ⟨rfl, head?_spaceOperators _⟩

/-- Where calls of `url` are kept in a text that is written by the scan, the scan leaves them as they
are. -/
theorem spaceOperators_eq_of_readsAs (h : Ordered ps) (hkept : ReadsAs id ps r)
    (hspaced : ReadsAs spaceOperators ps r) (hu : .url u ∈ ps) : spaceOperators u = u := by
  induction h generalizing r with
  | nil => cases hu
  | @text t ps ht hnext h ih =>
    obtain ⟨o, rest, rfl, ho, hrest⟩ := hkept
    obtain ⟨o', rest', heq, ho', hrest'⟩ := hspaced
    have hmem : .url u ∈ ps := (List.mem_cons.1 hu).resolve_left nofun
    match ps, h, hnext with
    | [], _, _ => cases hmem
    | .text v :: _, _, hnext => exact absurd rfl (hnext v)
    | .url v :: ps, h, _ =>
      have hhead : rest.head? = some 'u' := hrest.head?_eq h.head?_eq.1
      have hhead' : rest'.head? = some 'u' := hrest'.head?_eq h.head?_eq.2
      obtain rfl : o = o' := eq_of_append_eq heq (ho.filter_eq.trans ho'.filter_eq.symm)
        (.inr (by simp [hhead'])) (.inr (by simp [hhead]))
      rw [List.append_cancel_left heq] at hrest
      exact ih hrest hrest' hmem
  | @closed args ps hargs h ih =>
    obtain ⟨o, rest, rfl, ho, hrest⟩ := hkept
    obtain ⟨o', rest', heq, ho', hrest'⟩ := hspaced
    have hsame : o = o' := by
      rw [Span.WrittenAs] at ho ho'
      have hlast : o.getLast? = some ')' := by
        rw [ho]
        exact List.getLast?_concat (l := 'u' :: 'r' :: 'l' :: '(' :: args)
      have hlast' : o'.getLast? = some ')' :=
        ho' ▸ getLast?_spaceOperators ('u' :: 'r' :: 'l' :: '(' :: args)
      refine eq_of_append_eq heq ?_ (.inl (by simp [hlast])) (.inl (by simp [hlast']))
      rw [ho, ho', (spaced_spaceOperators _).filter_eq]
      rfl
    subst hsame
    rcases List.mem_cons.1 hu with heq | hmem
    · obtain rfl := Span.url.inj heq
      exact ho'.symm.trans ho
    · rw [List.append_cancel_left heq] at hrest
      exact ih hrest hrest' hmem
  | @opened s d hs =>
    obtain ⟨o, rest, rfl, ho, hrest⟩ := hkept
    obtain ⟨o', rest', heq, ho', hrest'⟩ := hspaced
    obtain rfl := Span.url.inj (List.mem_singleton.1 hu)
    rw [ReadsAs] at hrest hrest'
    rw [hrest, hrest', List.append_nil, List.append_nil] at heq
    rw [← ho', ← heq]
    exact ho

private theorem readsAs_of_eq {g : List Char → List Char} (h : ReadsAs f ps r)
    (hfg : ∀ u, .url u ∈ ps → f u = g u) : ReadsAs g ps r := by
  induction ps generalizing r with
  | nil => exact h
  | cons p ps ih =>
    obtain ⟨o, rest, rfl, ho, hrest⟩ := h
    refine ⟨o, rest, rfl, ?_, ih hrest fun u hu => hfg u (List.mem_cons_of_mem _ hu)⟩
    cases p with
    | text t => exact ho
    | url u => exact ho.trans (hfg u List.mem_cons_self)

/-- The spans that the scan writes are those of the value exactly if it changes none of the calls. -/
theorem readsAs_spaceOperators_iff (s : List Char) :
    ReadsAs id (spans s) (spaceOperators (decodedSpans s)) ↔
      ∀ u, .url u ∈ spans s → spaceOperators u = u :=
  ⟨fun h _ => spaceOperators_eq_of_readsAs (ordered_spans s) h (readsAs_spaceOperators s),
    fun h => readsAs_of_eq (readsAs_spaceOperators s) h⟩

end ReadsAs

/-- Whether a character means something in the texts between calls of `url`. -/
def isMark (c : Char) : Bool := c == '_' || c == '\\'

/-- What a span has outside of calls of `url`. -/
def Span.outside : Span → List Char
  | text s => s
  | url _ => []

section Unread

variable {may : List Char → Char → Prop} {ps : List Span} {read s r t : List Char}

/-- Reading takes away a mark for each underscore: itself, or the backslash in front of it. -/
theorem countP_readUnderscores (t : List Char) :
    (readUnderscores t).countP isMark + t.count '_' = t.countP isMark := by
  fun_induction readUnderscores t with
  | case1 => rfl
  | case2 s ih =>
    simp [isMark] at ih ⊢
    omega
  | case3 c s h ih =>
    by_cases hc : c = '_'
    · simp [hc, isMark] at ih ⊢
      omega
    · simp [hc, isMark, List.countP_cons] at ih ⊢
      omega

theorem Spaced.countP_isMark (h : Spaced may read s r) : r.countP isMark = s.countP isMark := by
  have hfilter (t : List Char) : (t.filter (· != ' ')).countP isMark = t.countP isMark := by
    rw [List.countP_filter]
    refine List.countP_congr fun c _ => ?_
    by_cases hc : c = ' '
    · simp [hc, isMark]
    · simp [hc]
  rw [← hfilter, h.filter_eq, hfilter]

theorem ReadsAs.countP_isMark (h : ReadsAs id ps r) :
    r.countP isMark + (ps.flatMap Span.outside).count '_' =
      (ps.flatMap Span.raw).countP isMark := by
  induction ps generalizing r with
  | nil =>
    obtain rfl := h
    rfl
  | cons p ps ih =>
    obtain ⟨o, rest, rfl, ho, hrest⟩ := h
    have hspan : o.countP isMark + p.outside.count '_' = p.raw.countP isMark := by
      cases p with
      | text t => rw [Spaced.countP_isMark ho, Span.outside, countP_readUnderscores, Span.raw]
      | url u => exact congrArg (List.countP isMark) ho
    have hps := ih hrest
    simp only [List.countP_append, List.count_append, List.flatMap_cons]
    omega

private theorem readUnderscores_eq_self (h : '_' ∉ t) : readUnderscores t = t := by
  induction t with
  | nil => rfl
  | cons c t ih =>
    rw [List.mem_cons, not_or] at h
    have hc : (c == '_') = false := beq_false_of_ne (Ne.symm h.1)
    rw [readUnderscores_cons, ih h.2, hc, if_neg Bool.false_ne_true]
    exact fun _ hhead => h.2 (List.mem_of_mem_head? hhead)

/-- The value itself is a reading of its spans exactly if there are no underscores to read. -/
theorem readsAs_raw_iff (ps : List Span) :
    ReadsAs id ps (ps.flatMap Span.raw) ↔ ∀ t, .text t ∈ ps → '_' ∉ t := by
  constructor
  · intro h t ht
    have hzero : (ps.flatMap Span.outside).count '_' = 0 := by
      have hcount := h.countP_isMark
      omega
    exact fun hmem => List.count_eq_zero.1 hzero (List.mem_flatMap.2 ⟨.text t, ht, hmem⟩)
  · intro h
    induction ps with
    | nil => rfl
    | cons p ps ih =>
      refine ⟨p.raw, _, rfl, ?_, ih fun t ht => h t (List.mem_cons_of_mem _ ht)⟩
      cases p with
      | text t =>
        rw [Span.WrittenAs, readUnderscores_eq_self (h t List.mem_cons_self)]
        exact spaced_self _ _ _
      | url u => rfl

end Unread

end Chars

/-- When the calls of `url` are kept and the underscores between them are read. A value that begins and
ends as a call is left as it is, so no underscore may stand between its calls. In any other value, each
call must be one that the spacing of operators leaves alone. -/
theorem decodeArbitrary_keepsUrls_iff (s : String) :
    Chars.ReadsAs id (Chars.spans s.toList) (decodeArbitrary s).toList ↔
      if Text.startsWith s "url(" ∧ Text.endsWith s ")" then
        ∀ t, .text t ∈ Chars.spans s.toList → '_' ∉ t
      else ∀ u, .url u ∈ Chars.spans s.toList → Chars.spaceOperators u = u := by
  rw [decodeArbitrary, String.toList_ofList]
  split
  · next h =>
    rw [Chars.decodeArbitrary, if_pos (isUrl_toList_iff.2 h), ← Chars.readsAs_raw_iff,
      Chars.flatMap_raw_spans]
  · next h =>
    rw [Chars.decodeArbitrary_eq (Bool.eq_false_iff.2 (mt isUrl_toList_iff.1 h))]
    exact Chars.readsAs_spaceOperators_iff s.toList

/-- The operator in a call of `url` is spaced where the address looks like a mathematical function, and
between two calls at the ends of a value the underscores stay. -/
theorem decodeArbitrary_not_keepsUrls :
    (decodeArbitrary "url(calc(1px-2px))_b" = "url(calc(1px - 2px)) b" ∧
        ¬ Chars.ReadsAs id (Chars.spans "url(calc(1px-2px))_b".toList)
          (decodeArbitrary "url(calc(1px-2px))_b").toList) ∧
      decodeArbitrary "url(a)_b_url(c)" = "url(a)_b_url(c)" ∧
        ¬ Chars.ReadsAs id (Chars.spans "url(a)_b_url(c)".toList)
          (decodeArbitrary "url(a)_b_url(c)").toList := by
  refine ⟨⟨by decide +kernel, fun h => ?_⟩, by decide +kernel, fun h => ?_⟩
  · have hurl : .url "url(calc(1px-2px))".toList ∈ Chars.spans "url(calc(1px-2px))_b".toList := by
      decide +kernel
    have hscan : (decodeArbitrary "url(calc(1px-2px))_b").toList =
        Chars.spaceOperators (Chars.decodedSpans "url(calc(1px-2px))_b".toList) := by
      decide +kernel
    rw [hscan] at h
    exact absurd ((Chars.readsAs_spaceOperators_iff _).1 h _ hurl) (by decide +kernel)
  · have htext : .text "_b_".toList ∈ Chars.spans "url(a)_b_url(c)".toList := by decide +kernel
    have hself : (decodeArbitrary "url(a)_b_url(c)").toList =
        (Chars.spans "url(a)_b_url(c)".toList).flatMap Chars.Span.raw := by
      decide +kernel
    rw [hself] at h
    exact absurd ((Chars.readsAs_raw_iff _).1 h _ htext) (by decide)

end UtilityCss
