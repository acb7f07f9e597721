import Mathlib.Algebra.Order.BigOperators.Group.List
import Mathlib.Algebra.Order.Ring.Nat
import UtilityCss.Proofs.Stylesheet.Literal
import UtilityCss.Proofs.Stylesheet.NestingSelector
import UtilityCss.Proofs.Text.Separator

/-!
# The nesting selector and strings

A list of selectors is split outside of strings only. But `&` is looked for and replaced in strings
too, so that a nested selector keeps its strings exactly if no `&` stands in any of them.
-/

namespace UtilityCss

/-- A part of a selector: a character, an escape, or a string. -/
inductive SelectorPart where
  | char (c : Char)
  | escape (text : List Char)
  | string (quote : Char) (body : List Char)
  /-- A quote that is not closed, and all that is behind it. -/
  | unclosed (text : List Char)
  deriving DecidableEq, Repr

namespace Chars

/-- The body of the string in which a text begins, and what is behind its closing quote. -/
def cutString? (quote : Char) : List Char → Option (List Char × List Char)
  | [] => none
  | ['\\'] => none
  | '\\' :: c :: s => (cutString? quote s).map fun (body, rest) => ('\\' :: c :: body, rest)
  | c :: s =>
    if c == quote then some ([], s)
    else (cutString? quote s).map fun (body, rest) => (c :: body, rest)

theorem cutString?_cons {quote c : Char} {s : List Char} (hc : c ≠ '\\') :
    cutString? quote (c :: s) = if c == quote then some ([], s)
      else (cutString? quote s).map fun (body, rest) => (c :: body, rest) := by
  rw [cutString?]
  · exact fun h _ => hc h
  · exact fun _ _ h _ => hc h

theorem cutString?_eq_some_iff {quote : Char} {s body rest : List Char} (hescape : quote ≠ '\\') :
    cutString? quote s = some (body, rest) ↔ IsLiteralBody quote body ∧ s = body ++ quote :: rest := by
  constructor
  · intro h
    fun_induction cutString? quote s generalizing body with
    | case1 => cases h
    | case2 => cases h
    | case3 c s ih =>
      obtain ⟨⟨front, behind⟩, hcut, heq⟩ := Option.map_eq_some_iff.1 h
      cases heq
      obtain ⟨hbody, rfl⟩ := ih hcut
      exact ⟨hbody, rfl⟩
    | case4 c s hlast hescape hquote =>
      cases h
      rw [eq_of_beq hquote]
      exact ⟨trivial, rfl⟩
    | case5 c s hlast hescape hquote ih =>
      obtain ⟨⟨front, behind⟩, hcut, heq⟩ := Option.map_eq_some_iff.1 h
      cases heq
      obtain ⟨hbody, rfl⟩ := ih hcut
      have hc := ne_backslash hlast hescape
      rw [IsLiteralBody]
      · exact ⟨⟨hc, by simpa using hquote, hbody⟩, rfl⟩
      · exact fun _ _ h _ => hc h
  · rintro ⟨hbody, rfl⟩
    fun_induction IsLiteralBody quote body with
    | case1 => rw [List.nil_append, cutString?_cons hescape, if_pos (beq_self_eq_true quote)]
    | case2 c s ih =>
      rw [List.cons_append, List.cons_append, cutString?, ih hbody]
      rfl
    | case3 c s hne ih =>
      rw [List.cons_append, cutString?_cons hbody.1, if_neg (by simpa using hbody.2.1), ih hbody.2.2]
      rfl

theorem cutString?_concat_eq_none {quote c : Char} {s : List Char} (hc : c ≠ quote)
    (h : cutString? quote s = none) : cutString? quote (s ++ [c]) = none := by
  fun_induction cutString? quote s with
  | case1 =>
    rw [List.nil_append]
    by_cases hescape : c = '\\'
    · subst hescape
      rfl
    · rw [cutString?_cons hescape, if_neg (by simpa using hc)]
      rfl
  | case2 => rfl
  | case3 d s ih =>
    rw [List.cons_append, List.cons_append, cutString?, ih (Option.map_eq_none_iff.1 h)]
    rfl
  | case4 => cases h
  | case5 d s hlast hescape hquote ih =>
    rw [List.cons_append, cutString?_cons (ne_backslash hlast hescape), if_neg hquote,
      ih (Option.map_eq_none_iff.1 h)]
    rfl

theorem ne_backslash_of_isQuote {quote : Char} (hquote : isQuote quote) : quote ≠ '\\' := by
  rintro rfl
  exact absurd hquote (by decide)

def selectorParts : List Char → List SelectorPart
  | [] => []
  | ['\\'] => [.escape ['\\']]
  | '\\' :: c :: s => .escape ['\\', c] :: selectorParts s
  | c :: s =>
    if hquote : isQuote c then
      match hcut : cutString? c s with
      | some (body, rest) =>
        have := ((cutString?_eq_some_iff (ne_backslash_of_isQuote hquote)).1 hcut).2
        .string c body :: selectorParts rest
      | none => [.unclosed (c :: s)]
    else .char c :: selectorParts s
termination_by s => s.length
decreasing_by
  all_goals
    simp only [List.length_append, List.length_cons, *]
    omega

end Chars

namespace SelectorPart

def text : SelectorPart → List Char
  | char c => [c]
  | escape t | unclosed t => t
  | string quote body => Chars.literal quote body

def string? : SelectorPart → Option (List Char)
  | string quote body => some (Chars.literal quote body)
  | _ => none

def isQuoted : SelectorPart → Bool
  | string _ _ | unclosed _ => true
  | _ => false

/-- The part with the parent in its place, if it is `&`. -/
def nestIn (parent : List Char) (p : SelectorPart) : List Char :=
  if p = char '&' then parent else p.text

end SelectorPart

def Chars.selectorStrings (s : List Char) : List (List Char) :=
  (selectorParts s).filterMap (·.string?)

def selectorStrings (selector : String) : List String :=
  (Chars.selectorStrings selector.toList).map String.ofList

/-- One selector inside one parent, where `&` means nothing in quotes. -/
def nestAround (parent child : String) : String :=
  let parts := Chars.selectorParts child.toList
  if .char '&' ∈ parts then String.ofList (parts.flatMap (·.nestIn parent.toList))
  else parent ++ " " ++ child

/-- Whether `&` stands unescaped in quotes somewhere in a selector. -/
def QuotesNesting (selector : String) : Prop :=
  ∃ p ∈ Chars.selectorParts selector.toList, p.isQuoted ∧ Chars.hasNesting p.text

namespace Chars

section Parts

variable {sep c quote : Char} {s body rest parent closers : List Char}

theorem selectorParts_literal (hquote : isQuote quote) (hbody : IsLiteralBody quote body) :
    selectorParts (literal quote body ++ rest) = .string quote body :: selectorParts rest := by
  have hescape := ne_backslash_of_isQuote hquote
  have hcut : cutString? quote (body ++ quote :: rest) = some (body, rest) :=
    (cutString?_eq_some_iff hescape).2 ⟨hbody, rfl⟩
  rw [literal, List.append_assoc, List.cons_append, List.singleton_append, selectorParts, dif_pos hquote]
  · split
    · next body' rest' hcut' =>
      cases hcut.symm.trans hcut'
      rfl
    · next hcut' =>
      rw [hcut] at hcut'
      cases hcut'
  · exact fun h _ => hescape h
  · exact fun _ _ h _ => hescape h

theorem selectorParts_cons (hc : c ≠ '\\') (hquote : isQuote c = false) :
    selectorParts (c :: s) = .char c :: selectorParts s := by
  rw [selectorParts, dif_neg (Bool.eq_false_iff.1 hquote)]
  · exact fun h _ => hc h
  · exact fun _ _ h _ => hc h

theorem selectorParts_unclosed (hquote : isQuote quote) (hcut : cutString? quote s = none) :
    selectorParts (quote :: s) = [.unclosed (quote :: s)] := by
  have hescape := ne_backslash_of_isQuote hquote
  rw [selectorParts, dif_pos hquote]
  · split
    · next hcut' =>
      rw [hcut] at hcut'
      cases hcut'
    · rfl
  · exact fun h _ => hescape h
  · exact fun _ _ h _ => hescape h

/-- What holds of an empty text, and in front of a text of which it holds of every part, holds of all
texts. -/
theorem selectorParts_induction {P : List Char → Prop} (nil : P []) (backslash : P ['\\'])
    (escape : ∀ c s, P s → P ('\\' :: c :: s))
    (string : ∀ quote body s, isQuote quote → IsLiteralBody quote body → P s →
      P (literal quote body ++ s))
    (unclosed : ∀ quote s, isQuote quote → cutString? quote s = none → P (quote :: s))
    (char : ∀ c s, c ≠ '\\' → isQuote c = false → P s → P (c :: s)) (s : List Char) : P s := by
  fun_induction selectorParts s with
  | case1 => exact nil
  | case2 => exact backslash
  | case3 c s ih => exact escape c s ih
  | case4 c hquote body rest hlast hescape hcut ih =>
    have hbody := ((cutString?_eq_some_iff (ne_backslash_of_isQuote hquote)).1 hcut).1
    have hjoin : c :: (body ++ c :: rest) = literal c body ++ rest := by simp [literal]
    rw [hjoin]
    exact string c body rest hquote hbody ih
  | case5 c s hlast hescape hquote hcut => exact unclosed c s hquote hcut
  | case6 c s hlast hescape hquote ih =>
    exact char c s (ne_backslash hlast hescape) (Bool.eq_false_iff.2 hquote) ih

/-- Inside of a quote only the quote changes what is open. -/
theorem nestingAfter?_literalBody (sep : Char) (closers : List Char) (h : IsLiteralBody quote body) :
    nestingAfter? ⟨some quote, closers⟩ body = some ⟨some quote, closers⟩ ∧
      IsUncut sep ⟨some quote, closers⟩ body := by
  fun_induction IsLiteralBody quote body with
  | case1 => exact ⟨rfl, rfl⟩
  | case2 c s ih => exact ih h
  | case3 c s hne ih =>
    obtain ⟨hescape, hend, hs⟩ := h
    have hnext : Nesting.next ⟨some quote, closers⟩ c = ⟨some quote, closers⟩ :=
      if_neg (by simpa using hend)
    have hnext? : Nesting.next? ⟨some quote, closers⟩ c = some ⟨some quote, closers⟩ :=
      congrArg some hnext
    rw [nestingAfter?_cons hescape, hnext?, isUncut_cons hescape, hnext]
    exact ⟨(ih hs).1, by simp [Nesting.isTop], (ih hs).2⟩

theorem nestingAfter?_literal (sep : Char) (closers : List Char) (hquote : isQuote quote)
    (hbody : IsLiteralBody quote body) :
    nestingAfter? ⟨none, closers⟩ (literal quote body) = some ⟨none, closers⟩ ∧
      IsUncut sep ⟨none, closers⟩ (literal quote body) := by
  have hescape := ne_backslash_of_isQuote hquote
  have hopen : Nesting.next ⟨none, closers⟩ quote = ⟨some quote, closers⟩ := if_pos hquote
  have hcloser : isCloser quote = false := by rcases isQuote_iff.1 hquote with rfl | rfl <;> rfl
  have hopen? : Nesting.next? ⟨none, closers⟩ quote = some ⟨some quote, closers⟩ := by
    rw [Nesting.next?, hcloser, hopen]
    rfl
  have hclose : Nesting.next ⟨some quote, closers⟩ quote = ⟨none, closers⟩ :=
    if_pos (beq_self_eq_true quote)
  have hclose? : Nesting.next? ⟨some quote, closers⟩ quote = some ⟨none, closers⟩ :=
    congrArg some hclose
  obtain ⟨hafter, huncut⟩ := nestingAfter?_literalBody sep closers hbody
  have hend : IsUncut sep ⟨some quote, closers⟩ [quote] :=
    (isUncut_cons hescape).2 ⟨by simp [hquote], rfl⟩
  rw [literal, List.cons_append, nestingAfter?_cons hescape, hopen?, isUncut_cons hescape, hopen]
  refine ⟨?_, by simp [hquote], huncut.append hafter hend⟩
  rw [Option.bind_some, nestingAfter?_append hafter, nestingAfter?_cons hescape, hclose?]
  rfl

theorem isUncut_of_unclosed (h : cutString? quote s = none) :
    IsUncut sep ⟨some quote, closers⟩ s := by
  fun_induction cutString? quote s with
  | case1 => rfl
  | case2 => rfl
  | case3 c s ih => exact ih (Option.map_eq_none_iff.1 h)
  | case4 => cases h
  | case5 c s hlast hescape hquote ih =>
    have hnext : Nesting.next ⟨some quote, closers⟩ c = ⟨some quote, closers⟩ := if_neg hquote
    rw [isUncut_cons (ne_backslash hlast hescape), hnext]
    exact ⟨by simp [Nesting.isTop], ih (Option.map_eq_none_iff.1 h)⟩

theorem selectorStrings_literal (hquote : isQuote quote) (hbody : IsLiteralBody quote body) :
    selectorStrings (literal quote body ++ rest) = literal quote body :: selectorStrings rest := by
  rw [selectorStrings, selectorParts_literal hquote hbody]
  rfl

theorem selectorStrings_cons (hc : c ≠ '\\') (hquote : isQuote c = false) :
    selectorStrings (c :: s) = selectorStrings s := by
  rw [selectorStrings, selectorParts_cons hc hquote]
  rfl

theorem selectorStrings_escape : selectorStrings ('\\' :: c :: s) = selectorStrings s := by
  rw [selectorStrings, selectorParts]
  rfl

theorem selectorStrings_unclosed (hquote : isQuote quote) (hcut : cutString? quote s = none) :
    selectorStrings (quote :: s) = [] := by
  rw [selectorStrings, selectorParts_unclosed hquote hcut]
  rfl

theorem selectorStrings_nil : selectorStrings [] = [] := by
  rw [selectorStrings, selectorParts]
  rfl

private theorem selectorStrings_backslash : selectorStrings ['\\'] = [] := by
  rw [selectorStrings, selectorParts]
  rfl

/-- No string is split, and none comes to be, where a text is split at a separator. -/
theorem selectorStrings_segmentFrom (sep : Char) (closers : List Char) (s : List Char) :
    selectorStrings (segmentFrom sep ⟨none, closers⟩ s).1 ++
      (segmentFrom sep ⟨none, closers⟩ s).2.flatMap selectorStrings = selectorStrings s := by
  induction s using selectorParts_induction generalizing closers with
  | nil => simp [segmentFrom, selectorStrings_nil]
  | backslash => simp [segmentFrom]
  | escape c s ih =>
    rw [selectorStrings_escape, ← ih closers, segmentFrom]
    exact congrArg (· ++ _) selectorStrings_escape
  | string quote body s hquote hbody ih =>
    obtain ⟨hafter, huncut⟩ := nestingAfter?_literal sep closers hquote hbody
    rw [segmentFrom_append hafter huncut, selectorStrings_literal hquote hbody,
      selectorStrings_literal hquote hbody, List.cons_append, ih]
  | unclosed quote s hquote hcut =>
    have hopen : Nesting.next ⟨none, closers⟩ quote = ⟨some quote, closers⟩ := if_pos hquote
    have huncut : IsUncut sep ⟨none, closers⟩ (quote :: s) := by
      rw [isUncut_cons (ne_backslash_of_isQuote hquote), hopen]
      exact ⟨by simp [hquote], isUncut_of_unclosed hcut⟩
    have hjoin := join_segmentFrom sep ⟨none, closers⟩ (quote :: s)
    rw [huncut, List.flatMap_nil, List.append_nil] at hjoin
    rw [huncut, hjoin, List.flatMap_nil, List.append_nil]
  | char c s hc hquote ih =>
    have hnext : (Nesting.next ⟨none, closers⟩ c).quote = none := by
      rw [Nesting.next]
      grind
    rw [segmentFrom_cons hc, selectorStrings_cons hc hquote]
    split
    · rw [selectorStrings_nil, List.nil_append, List.flatMap_cons, ih]
    · rw [selectorStrings_cons hc hquote]
      generalize Nesting.next ⟨none, closers⟩ c = n at hnext ⊢
      obtain ⟨quote, closers'⟩ := n
      cases hnext
      exact ih closers'

private theorem flatMap_selectorStrings_segment (sep : Char) (s : List Char) :
    (segment sep s).flatMap selectorStrings = selectorStrings s := by
  rw [segment, List.flatMap_cons]
  exact selectorStrings_segmentFrom sep [] s

theorem plain_of_isBlank (hblank : isBlank c) : c ≠ '\\' ∧ isQuote c = false := by
  constructor
  · rintro rfl
    cases hblank
  · rw [Bool.eq_false_iff]
    intro hquote
    rw [isBlank_eq_false_of_isQuote hquote] at hblank
    cases hblank

private theorem selectorStrings_concat (hblank : isBlank c) (s : List Char) :
    selectorStrings (s ++ [c]) = selectorStrings s := by
  obtain ⟨hescape, hquote⟩ := plain_of_isBlank hblank
  induction s using selectorParts_induction with
  | nil => exact selectorStrings_cons hescape hquote
  | backslash =>
    rw [selectorStrings_backslash, List.singleton_append, selectorStrings_escape,
      selectorStrings_nil]
  | escape d s ih =>
    rw [List.cons_append, List.cons_append, selectorStrings_escape, selectorStrings_escape, ih]
  | string quote body s hend hbody ih =>
    rw [List.append_assoc, selectorStrings_literal hend hbody, selectorStrings_literal hend hbody, ih]
  | unclosed quote s hopen hcut =>
    have hne : c ≠ quote := by
      rintro rfl
      rw [hopen] at hquote
      cases hquote
    rw [List.cons_append, selectorStrings_unclosed hopen hcut,
      selectorStrings_unclosed hopen (cutString?_concat_eq_none hne hcut)]
  | char d s hd hplain ih =>
    rw [List.cons_append, selectorStrings_cons hd hplain, selectorStrings_cons hd hplain, ih]

theorem selectorStrings_trim (s : List Char) : selectorStrings (trim s) = selectorStrings s := by
  have hstart (s : List Char) : selectorStrings (trimStart s) = selectorStrings s := by
    induction s with
    | nil => rfl
    | cons c s ih =>
      rw [trimStart, List.dropWhile_cons]
      split
      · next hblank =>
        obtain ⟨hescape, hquote⟩ := plain_of_isBlank hblank
        rw [selectorStrings_cons hescape hquote]
        exact ih
      · rfl
  have hend (s : List Char) : selectorStrings (trimEnd s) = selectorStrings s := by
    induction s using List.reverseRecOn with
    | nil => rfl
    | append_singleton s c ih =>
      by_cases hblank : isBlank c
      · rw [trimEnd_append_of_forall (by simpa using hblank), ih, selectorStrings_concat hblank]
      · rw [trimEnd_eq_self (by simpa using hblank)]
  rw [trim, hend, hstart]

theorem hasNesting_eq_true_iff (s : List Char) : hasNesting s ↔
    ∃ p ∈ selectorParts s, p = .char '&' ∨ (p.isQuoted ∧ hasNesting p.text) := by
  induction s using selectorParts_induction with
  | nil => simp [selectorParts, hasNesting]
  | backslash => simp [selectorParts, hasNesting, SelectorPart.isQuoted]
  | escape c s ih =>
    rw [selectorParts, hasNesting, ih]
    simp [SelectorPart.isQuoted]
  | string quote body s hquote hbody ih =>
    obtain ⟨hafter, -⟩ := nestingAfter?_literal '&' [] hquote hbody
    rw [hasNesting_append hafter, Bool.or_eq_true, ih, selectorParts_literal hquote hbody]
    simp [SelectorPart.isQuoted, SelectorPart.text]
  | unclosed quote s hquote hcut =>
    rw [selectorParts_unclosed hquote hcut]
    simp [SelectorPart.isQuoted, SelectorPart.text]
  | char c s hc hquote ih =>
    rw [hasNesting_cons hc, Bool.or_eq_true, ih, selectorParts_cons hc hquote]
    simp [SelectorPart.isQuoted, SelectorPart.text]

theorem replaceNesting_eq_flatMap (parent s : List Char) : replaceNesting parent s =
    (selectorParts s).flatMap fun p =>
      if p.isQuoted then replaceNesting parent p.text else p.nestIn parent := by
  induction s using selectorParts_induction with
  | nil => simp [selectorParts, replaceNesting]
  | backslash =>
    simp [selectorParts, replaceNesting, SelectorPart.isQuoted, SelectorPart.nestIn,
      SelectorPart.text]
  | escape c s ih =>
    rw [selectorParts, replaceNesting, ih]
    simp [SelectorPart.isQuoted, SelectorPart.nestIn, SelectorPart.text]
  | string quote body s hquote hbody ih =>
    obtain ⟨hafter, -⟩ := nestingAfter?_literal '&' [] hquote hbody
    rw [replaceNesting_append hafter, ih, selectorParts_literal hquote hbody]
    simp [SelectorPart.isQuoted, SelectorPart.text]
  | unclosed quote s hquote hcut =>
    rw [selectorParts_unclosed hquote hcut]
    simp [SelectorPart.isQuoted, SelectorPart.text]
  | char c s hc hquote ih =>
    rw [replaceNesting_cons hc, ih, selectorParts_cons hc hquote]
    simp [SelectorPart.isQuoted, SelectorPart.nestIn, SelectorPart.text]

/-- Without a parent nothing is written for `&`, so a text with `&` gets shorter. -/
theorem length_replaceNesting_nil (s : List Char) :
    (replaceNesting [] s).length ≤ s.length ∧
      (hasNesting s → (replaceNesting [] s).length < s.length) := by
  fun_induction hasNesting s with
  | case1 => exact ⟨le_rfl, fun h => absurd h Bool.false_ne_true⟩
  | case2 => exact ⟨le_rfl, fun h => absurd h Bool.false_ne_true⟩
  | case3 c s ih => exact ⟨Nat.add_le_add_right ih.1 2, fun h => Nat.add_lt_add_right (ih.2 h) 2⟩
  | case4 c s hlast hescape ih =>
    rw [replaceNesting_cons (ne_backslash hlast hescape), List.length_append, List.length_cons]
    cases hc : c == '&' with
    | true =>
      rw [if_pos rfl, List.length_nil]
      exact ⟨by omega, fun _ => by omega⟩
    | false =>
      rw [if_neg Bool.false_ne_true, List.length_singleton]
      refine ⟨by omega, fun h => ?_⟩
      have hlt := ih.2 h
      omega

theorem length_replaceNesting_lt {p : SelectorPart} (hp : p ∈ selectorParts s) (hquoted : p.isQuoted)
    (h : hasNesting p.text) : (replaceNesting [] s).length <
      ((selectorParts s).flatMap (·.nestIn [])).length := by
  have hself (p : SelectorPart) (hquoted : p.isQuoted) : p.nestIn [] = p.text := by
    refine if_neg ?_
    rintro rfl
    cases hquoted
  rw [replaceNesting_eq_flatMap, List.length_flatMap, List.length_flatMap]
  refine List.sum_lt_sum _ _ (fun q _ => ?_) ⟨p, hp, ?_⟩
  · split
    · next hq =>
      rw [hself q hq]
      exact (length_replaceNesting_nil q.text).1
    · exact le_rfl
  · rw [if_pos hquoted, hself p hquoted]
    exact (length_replaceNesting_nil p.text).2 h

end Parts

end Chars

section Nesting

variable {parent child : String}

private theorem hasNesting_iff (h : ¬ QuotesNesting child) :
    hasNesting child ↔ .char '&' ∈ Chars.selectorParts child.toList := by
  rw [hasNesting, Chars.hasNesting_eq_true_iff]
  constructor
  · rintro ⟨p, hp, rfl | hquoted⟩
    · exact hp
    · exact absurd ⟨p, hp, hquoted⟩ h
  · exact fun hmem => ⟨_, hmem, .inl rfl⟩

/-- Without `&` in quotes a selector is nested as it is around them. -/
theorem nestSelector_eq_nestAround (h : ¬ QuotesNesting child) :
    nestSelector parent child = nestAround parent child := by
  rw [nestSelector, nestAround, replaceNesting, Chars.replaceNesting_eq_flatMap]
  refine ite_congr (propext (hasNesting_iff h)) (fun _ => congrArg String.ofList ?_) fun _ => rfl
  refine List.flatMap_congr fun p hp => ?_
  split
  · next hquoted =>
    have hnone : Chars.hasNesting p.text = false :=
      Bool.eq_false_iff.2 fun hnesting => h ⟨p, hp, hquoted, hnesting⟩
    rw [Chars.replaceNesting_of_not_hasNesting hnone, SelectorPart.nestIn, if_neg]
    rintro rfl
    cases hquoted
  · rfl

/-- With `&` in quotes it is not, if the parent is empty. -/
theorem nestSelector_ne_nestAround (h : QuotesNesting child) :
    nestSelector "" child ≠ nestAround "" child := by
  obtain ⟨p, hp, hquoted, hnesting⟩ := h
  have hchild : hasNesting child :=
    (Chars.hasNesting_eq_true_iff _).2 ⟨p, hp, .inr ⟨hquoted, hnesting⟩⟩
  rw [nestSelector, if_pos hchild, nestAround, replaceNesting]
  intro heq
  split at heq
  · have hlength := congrArg List.length (String.ofList_inj.1 heq)
    exact absurd hlength (Chars.length_replaceNesting_lt hp hquoted hnesting).ne
  · have hchars : Chars.replaceNesting [] child.toList = ' ' :: child.toList := by
      simpa using congrArg String.toList heq
    have hle := (Chars.length_replaceNesting_nil child.toList).1
    rw [hchars, List.length_cons] at hle
    omega

end Nesting

/-- The alternatives of a nested selector have its strings, whole and in order. They are nested with
the parent for every `&` outside of quotes, and with all that is in quotes as it is, exactly if no `&`
stands in quotes in any of them. -/
theorem combineSelectors_eq_nestAround_iff (child : String) :
    (combineSelectors none child).flatMap selectorStrings = selectorStrings child ∧
    ((∀ parents, combineSelectors (some parents) child =
        parents.flatMap fun parent => (combineSelectors none child).map (nestAround parent)) ↔
      ∀ c ∈ combineSelectors none child, ¬ QuotesNesting c) := by
  refine ⟨?_, fun h c hc hquotes => ?_, fun h parents => ?_⟩
  · have hpart (t : List Char) : selectorStrings (Text.trim (String.ofList t)) =
        (Chars.selectorStrings t).map String.ofList := by
      rw [selectorStrings, Text.trim, String.toList_ofList, String.toList_ofList,
        Chars.selectorStrings_trim]
    rw [combineSelectors, segment, List.flatMap_map, List.flatMap_map, selectorStrings,
      ← Chars.flatMap_selectorStrings_segment ',', List.map_flatMap]
    exact List.flatMap_congr fun t _ => hpart t
  · have hall := h [""]
    rw [List.flatMap_singleton] at hall
    have heach : (combineSelectors none child).map (nestSelector "") =
        (combineSelectors none child).map (nestAround "") := by
      rw [← hall]
      exact (List.flatMap_singleton _ _).symm
    exact nestSelector_ne_nestAround hquotes (List.map_inj_left.1 heach c hc)
  · refine List.flatMap_congr fun parent _ => ?_
    exact List.map_congr_left fun c hc => nestSelector_eq_nestAround (h c hc)

/-- The `&` of an attribute's value is taken for the parent. -/
theorem combineSelectors_attribute :
    selectorStrings "[data-x=\"a&b\"]" = ["\"a&b\""] ∧
    combineSelectors (some [".p"]) "[data-x=\"a&b\"]" = ["[data-x=\"a.pb\"]"] ∧
    (combineSelectors none "[data-x=\"a&b\"]").map (nestAround ".p") = [".p [data-x=\"a&b\"]"] := by
  decide +kernel

end UtilityCss
