import Mathlib.Data.List.Forall2
import UtilityCss.Proofs.Stylesheet.NestingSelector
import UtilityCss.Proofs.Stylesheet.Selector
import UtilityCss.Proofs.Text.Blank
import UtilityCss.Proofs.Text.Find
import UtilityCss.Proofs.Text.Nesting
import UtilityCss.Proofs.Variant.Slot

/-!
# What negated variants mean

An environment says which selectors an element matches and which conditions of at-rules hold. In it a
variant applies or does not: alternatives and queries of a list are joined by "or", wrappers inside
each other by "and", and `not` is negation. The negation of a variant changes its outermost wrapper
only. It is the complement exactly where the wrappers inside apply anyway and no further query of the
outermost one holds.
-/

namespace UtilityCss

/-- What holds where nodes may apply. -/
structure Environment where
  /-- The selectors that the element matches, without `&`. -/
  selects : String → Bool
  /-- The conditions that hold, by the name of the at-rule and that of the container they are about. -/
  holds : String → String → String → Bool

namespace Chars

def alternatives (s : List Char) : List (List Char) := (segment ',' s).map trim

/-- Whether a selector that begins so asks something of the element itself. -/
def asksElement (c : Char) : Bool := c == ':' || c == '.' || c == '[' || c == '#'

/-- A selector that begins with `*`, without it if it goes on about the same element. -/
def dropUniversal : List Char → List Char
  | '*' :: c :: s => if asksElement c then c :: s else '*' :: c :: s
  | s => s

/-- A selector about the element that `&` stands for, without `&`. -/
def ofElement (s : List Char) : List Char := dropUniversal (replaceNesting ['*'] s)

/-- The list of selectors that a selector negates, if it does nothing else. -/
def negated? : List Char → Option (List Char)
  | ':' :: 'n' :: 'o' :: 't' :: '(' :: s =>
    if s.getLast? = some ')' ∧ isBalanced s.dropLast then some s.dropLast else none
  | _ => none

/-- What `&` means in a selector without it: one around what is selected. -/
def relative (s : List Char) : List Char := if hasNesting s then s else '&' :: ' ' :: s

/-- A query with any `not` in front of it read as negation. -/
def readQuery (atom : List Char → Bool) : List Char → Bool
  | 'n' :: 'o' :: 't' :: ' ' :: s => !readQuery atom s
  | ' ' :: s => readQuery atom s
  | s => atom (trim s)

def isNameChar (c : Char) : Bool :=
  !isBlank c && (c.isAlphanum || c == '-' || c == '_' || 128 ≤ c.toNat)

/-- The name of the container that a query is about, if it has one, and the rest of the query. -/
def splitContainer (s : List Char) : List Char × List Char :=
  let name := s.takeWhile isNameChar
  let rest := s.drop name.length
  if name ≠ [] ∧ name ≠ "not".toList ∧ rest.head? = some ' ' then (name, rest) else ([], s)

private theorem length_of_negated? {s inner : List Char} (h : negated? s = some inner) :
    inner.length < s.length := by
  rw [negated?.eq_def] at h
  split at h
  · obtain ⟨-, h⟩ := Option.ite_none_right_eq_some.1 h
    cases h
    simp only [List.length_dropLast, List.length_cons]
    omega
  · cases h

theorem forall₂_replaceNesting (s : List Char) :
    List.Forall₂ (fun c d => d = c ∨ d = '*') s (replaceNesting ['*'] s) := by
  fun_induction replaceNesting ['*'] s with
  | case1 => exact .nil
  | case2 => exact .cons (.inl rfl) .nil
  | case3 c s ih => exact .cons (.inl rfl) (.cons (.inl rfl) ih)
  | case4 c s hlast hescape hc ih => exact .cons (.inr rfl) ih
  | case5 c s hlast hescape hc ih => exact .cons (.inl rfl) ih

private theorem length_ofElement_le (s : List Char) : (ofElement s).length ≤ s.length := by
  rw [(forall₂_replaceNesting s).length_eq, ofElement, dropUniversal.eq_def]
  split
  · split <;> simp_all
  · exact Nat.le_refl _

private theorem length_of_mem_alternatives {s t : List Char} (h : t ∈ alternatives s) :
    t.length ≤ s.length := by
  obtain ⟨u, hu, rfl⟩ := List.mem_map.1 h
  have htrim : (trim u).length ≤ u.length := by
    rw [trim, trimEnd, List.length_reverse]
    refine Nat.le_trans (List.dropWhile_suffix _).length_le ?_
    rw [List.length_reverse]
    exact (List.dropWhile_suffix _).length_le
  exact Nat.le_trans htrim (length_of_mem_segment hu)

end Chars

namespace Environment

variable (E : Environment)

/-- Whether the element matches a selector without `&`. -/
def matchesSelector (s : List Char) : Bool :=
  match h : Chars.negated? s with
  | some inner =>
    !(Chars.alternatives inner).attach.any fun t =>
      have := Chars.length_of_negated? h
      have := Chars.length_of_mem_alternatives t.2
      have := Chars.length_ofElement_le t
      matchesSelector (Chars.ofElement t)
  | none => E.selects (String.ofList s)
termination_by s.length
decreasing_by omega

def matchesRule (selector : String) : Bool :=
  (Chars.alternatives selector.toList).any fun t =>
    E.matchesSelector (Chars.ofElement (Chars.relative t))

def answers (name : String) (query : List Char) : Bool :=
  let subject := if name == "container" then Chars.splitContainer (Chars.trimStart query)
    else ([], query)
  Chars.readQuery (fun s => E.holds name (String.ofList subject.1) (String.ofList s)) subject.2

def answersFirst (name params : String) : Bool :=
  E.answers name (Chars.segmentFrom ',' {} params.toList).1

def answersFurther (name params : String) : Bool :=
  (Chars.segmentFrom ',' {} params.toList).2.any (E.answers name)

mutual

/-- Whether what is inside a wrapper applies: where its block is empty or where a wrapper in it does. -/
def reaches : Node → Bool
  | .rule selector ns => E.matchesRule selector && (ns.isEmpty || reachesOne ns)
  | .atRule name params ns => (E.answersFirst name params || E.answersFurther name params) &&
      (ns.isEmpty || reachesOne ns)
  | _ => false

def reachesOne : List Node → Bool
  | [] => false
  | n :: ns => reaches n || reachesOne ns

end

/-- Whether nodes inside of the given wrappers apply. -/
def Applies (ns : List Node) : Prop := ns.isEmpty || E.reachesOne ns

end Environment

namespace Chars

/-- Whether a selector that begins with its only `&` goes on about the same element. -/
def staysAtElement : List Char → Bool
  | '&' :: s => s.contains '&' || s.head?.any asksElement
  | _ => true

/-- Whether a selector is closed and is about the element that `&` stands for, not about one inside
of it. -/
def IsOfElement (s : List Char) : Prop := IsWhole s ∧ hasNesting s ∧ staysAtElement s

instance : DecidablePred IsOfElement := fun _ => inferInstanceAs (Decidable (_ ∧ _ ∧ _))

section Text

variable {c : Char} {n m : Nesting} {s t parent : List Char}

theorem next_star (hn : ∀ q ∈ n.quote, isQuote q) : n.next '*' = n.next '&' := by
  obtain ⟨quote, closers⟩ := n
  cases quote with
  | none => rfl
  | some q =>
    have hquote : isQuote q := hn q rfl
    have hstar : ('*' == q) = false ∧ ('&' == q) = false := by
      rcases isQuote_iff.1 hquote with rfl | rfl <;> exact ⟨rfl, rfl⟩
    simp [Nesting.next, hstar.1, hstar.2]

private theorem next?_star (hn : ∀ q ∈ n.quote, isQuote q) : n.next? '*' = n.next? '&' := by
  simp [Nesting.next?, next_star hn, isCloser]

private theorem nestingAfter?_replaceNesting (hn : ∀ q ∈ n.quote, isQuote q)
    (h : nestingAfter? n s = some m) : nestingAfter? n (replaceNesting ['*'] s) = some m := by
  fun_induction nestingAfter? n s with
  | case1 => exact h
  | case2 => cases h
  | case3 n c s ih => exact ih hn h
  | case4 n c s hlast hescape ih =>
    have hc := ne_backslash hlast hescape
    obtain ⟨n', hn', hrest⟩ := Option.bind_eq_some_iff.1 h
    rw [replaceNesting_cons hc]
    split
    · next hnesting =>
      obtain rfl := eq_of_beq hnesting
      rw [List.singleton_append, nestingAfter?_cons (by decide), next?_star hn, hn']
      exact ih n' (quote_of_next hn hn') hrest
    · rw [List.singleton_append, nestingAfter?_cons hc, hn']
      exact ih n' (quote_of_next hn hn') hrest

theorem IsUncut.replaceNesting (hn : ∀ q ∈ n.quote, isQuote q) (h : nestingAfter? n s = some m)
    (huncut : IsUncut ',' n s) : IsUncut ',' n (replaceNesting ['*'] s) := by
  fun_induction nestingAfter? n s with
  | case1 => exact huncut
  | case2 => cases h
  | case3 n c s ih => exact ih hn h huncut
  | case4 n c s hlast hescape ih =>
    have hc := ne_backslash hlast hescape
    obtain ⟨n', hn', h⟩ := Option.bind_eq_some_iff.1 h
    obtain ⟨hkeep, huncut⟩ := (isUncut_cons hc).1 huncut
    obtain rfl := eq_next_of_next? hn'
    have ih := ih _ (quote_of_next hn hn') h huncut
    rw [replaceNesting_cons hc]
    split
    · next hnesting =>
      obtain rfl := eq_of_beq hnesting
      rw [List.singleton_append, isUncut_cons (by decide), next_star hn]
      exact ⟨rfl, ih⟩
    · rw [List.singleton_append, isUncut_cons hc]
      exact ⟨hkeep, ih⟩

theorem hasNesting_replaceNesting (s : List Char) : hasNesting (replaceNesting ['*'] s) = false := by
  fun_induction replaceNesting ['*'] s with
  | case1 => rfl
  | case2 => rfl
  | case3 c s ih => exact ih
  | case4 c s hlast hescape hc ih => exact ih
  | case5 c s hlast hescape hc ih =>
    rw [hasNesting_cons (ne_backslash hlast hescape), ih, Bool.or_false]
    exact Bool.eq_false_iff.2 hc

private theorem trim_replaceNesting (h : trim s = s) :
    trim (replaceNesting ['*'] s) = replaceNesting ['*'] s := by
  have hends {s t : List Char} (hst : List.Forall₂ (fun c d => d = c ∨ d = '*') s t)
      (hs : ∀ c ∈ s.head?, isBlank c = false) : ∀ c ∈ t.head?, isBlank c = false := by
    cases hst with
    | nil => exact nofun
    | cons hcd =>
      rintro _ ⟨⟩
      rcases hcd with rfl | rfl
      · exact hs _ rfl
      · rfl
  have hboth := forall₂_replaceNesting s
  refine trim_eq_self (hends hboth fun c hc => ?_) ?_
  · obtain ⟨t, ht⟩ := List.head?_eq_some_iff.1 hc
    exact isBlank_head_trim (h.trans ht)
  · rw [← List.head?_reverse]
    refine hends (List.forall₂_reverse_iff.2 hboth) fun c hc => ?_
    rw [List.head?_reverse, ← h] at hc
    exact isBlank_getLast_trim hc

end Text

/-- What can stand in a list inside of `:not()`. -/
structure IsListItem (s : List Char) : Prop where
  whole : IsWhole s
  uncut : IsUncut ',' {} s
  trimmed : trim s = s
  plain : hasNesting s = false

private theorem dropUniversal_of_head?_ne {s : List Char} (h : s.head? ≠ some '*') :
    dropUniversal s = s := by
  rw [dropUniversal.eq_def]
  split
  · exact absurd rfl h
  · rfl

end Chars

private theorem selectorToNegate_cases (selector : String) :
    (∃ rest, selector.toList = '&' :: rest ∧ '&' ∉ rest ∧
      (selectorToNegate selector).toList = rest) ∨
    (selectorToNegate selector).toList = Chars.replaceNesting ['*'] selector.toList := by
  have hreplaced : (replaceNesting selector "*").toList =
      Chars.replaceNesting ['*'] selector.toList := String.toList_ofList
  rw [selectorToNegate]
  split
  · next rest hrest =>
    split
    · next hcount =>
      left
      obtain ⟨s, hs, rfl⟩ := Option.map_eq_some_iff.1 hrest
      have hselector : selector.toList = '&' :: s := (List.append_eq_of_isPrefixOf?_eq_some hs).symm
      refine ⟨s, hselector, ?_, String.toList_ofList⟩
      rw [hselector, List.count_cons_self, beq_iff_eq, Nat.add_eq_right] at hcount
      exact List.count_eq_zero.1 hcount
    · exact .inr hreplaced
  · exact .inr hreplaced

/-- The selector that is negated can stand in a list and is about the same element. -/
theorem isListItem_selectorToNegate {selector : String} (h : Chars.IsOfElement selector.toList)
    (huncut : Chars.IsUncut ',' {} selector.toList)
    (htrim : Chars.trim selector.toList = selector.toList) :
    Chars.IsListItem (selectorToNegate selector).toList ∧
      Chars.ofElement (selectorToNegate selector).toList = Chars.ofElement selector.toList := by
  obtain ⟨hwhole, -, hstays⟩ := h
  rcases selectorToNegate_cases selector with ⟨rest, hselector, hrest, hnegated⟩ | hnegated
  · rw [hnegated]
    rw [hselector] at hwhole huncut htrim hstays ⊢
    have hasks : rest.head?.any Chars.asksElement := by
      simpa [Chars.staysAtElement, hrest] using hstays
    cases rest with
    | nil => cases hasks
    | cons c rest =>
      have hasks : Chars.asksElement c := hasks
      have hc : isBlank c = false ∧ c ≠ '*' := by
        simp only [Chars.asksElement, Bool.or_eq_true, beq_iff_eq] at hasks
        rcases hasks with ((rfl | rfl) | rfl) | rfl <;> decide
      have hplain := Chars.hasNesting_of_notMem hrest
      refine ⟨⟨hwhole, huncut, Chars.trim_eq_self ?_ ?_, hplain⟩, ?_⟩
      · rintro _ ⟨⟩
        exact hc.1
      · intro d hd
        rw [← List.getLast?_cons_cons, ← htrim] at hd
        exact Chars.isBlank_getLast_trim hd
      · have hrest : Chars.replaceNesting ['*'] (c :: rest) = c :: rest :=
          Chars.replaceNesting_of_not_hasNesting hplain
        have hselector : Chars.replaceNesting ['*'] ('&' :: c :: rest) = '*' :: c :: rest := by
          rw [Chars.replaceNesting_cons (by decide), hrest]
          rfl
        have hhead : (c :: rest).head? ≠ some '*' := fun h => hc.2 (Option.some.inj h)
        rw [Chars.ofElement, Chars.ofElement, hrest, hselector,
          Chars.dropUniversal_of_head?_ne hhead]
        exact (if_pos hasks).symm
  · rw [hnegated]
    refine ⟨⟨?_, huncut.replaceNesting nofun hwhole, Chars.trim_replaceNesting htrim,
      Chars.hasNesting_replaceNesting _⟩, ?_⟩
    · exact Chars.nestingAfter?_replaceNesting nofun hwhole
    · rw [Chars.ofElement, Chars.ofElement,
        Chars.replaceNesting_of_not_hasNesting (Chars.hasNesting_replaceNesting _)]

namespace Environment

variable (E : Environment)

private theorem matchesSelector_of_negated? {s inner : List Char}
    (h : Chars.negated? s = some inner) :
    E.matchesSelector s =
      !(Chars.alternatives inner).any fun t => E.matchesSelector (Chars.ofElement t) := by
  rw [matchesSelector]
  split
  · next inner' h' =>
    rw [h] at h'
    cases h'
    have hattach (p : List Char → Bool) : (Chars.alternatives inner).attach.any (fun t => p t) =
        (Chars.alternatives inner).any p :=
      List.any_map.symm.trans (congrArg (List.any · p) (List.attach_map_subtype_val _))
    exact congrArg (!·) (hattach fun t => E.matchesSelector (Chars.ofElement t))
  · next h' =>
    rw [h] at h'
    cases h'

private theorem matchesSelector_of_negated?_eq_none {s : List Char} (h : Chars.negated? s = none) :
    E.matchesSelector s = E.selects (String.ofList s) := by
  rw [matchesSelector]
  split
  · next inner' h' =>
    rw [h] at h'
    cases h'
  · rfl

private theorem hasNesting_intercalate {parts : List String}
    (h : ∀ part ∈ parts, Chars.IsListItem part.toList) :
    Chars.hasNesting (", ".intercalate parts).toList = false := by
  induction parts with
  | nil => rfl
  | cons part parts ih =>
    obtain ⟨hpart, hrest⟩ := List.forall_mem_cons.1 h
    cases parts with
    | nil =>
      rw [String.intercalate_singleton]
      exact hpart.plain
    | cons next parts =>
      rw [String.intercalate_cons_cons, String.toList_append, String.toList_append,
        List.append_assoc, Chars.hasNesting_append hpart.whole, hpart.plain, Bool.false_or]
      exact ih hrest

theorem map_trim_segment (selector : String) :
    (segment selector ',').map Text.trim =
      (Chars.alternatives selector.toList).map String.ofList := by
  simp [segment, Chars.alternatives, Text.trim, Function.comp_def]

theorem matchesRule_not {inner : List Char} (hwhole : Chars.IsWhole inner)
    (hplain : Chars.hasNesting inner = false) :
    E.matchesRule ("&:not(" ++ String.ofList inner ++ ")") =
      !(Chars.alternatives inner).any fun t => E.matchesSelector (Chars.ofElement t) := by
  let lead : List Char := ['&', ':', 'n', 'o', 't', '(']
  have hlead : Chars.nestingAfter? {} lead = some ⟨none, [')']⟩ := rfl
  have hinner := Chars.nestingAfter?_inside [')'] hwhole
  have htext : ("&:not(" ++ String.ofList inner ++ ")").toList = lead ++ (inner ++ [')']) := by
    simp [lead]
  have hbody : Chars.nestingAfter? ⟨none, [')']⟩ (inner ++ [')']) = some {} :=
    Chars.nestingAfter?_append hinner
  have hall : Chars.IsWhole (lead ++ (inner ++ [')'])) :=
    (Chars.nestingAfter?_append hlead).trans hbody
  have huncut : Chars.IsUncut ',' {} (lead ++ (inner ++ [')'])) :=
    .append hlead rfl (.append hinner (Chars.isUncut_inside (by decide) hwhole) rfl)
  have hlist : Chars.alternatives (lead ++ (inner ++ [')'])) = [lead ++ (inner ++ [')'])] := by
    rw [Chars.alternatives, Chars.segment_of_isUncut hall huncut, List.map_singleton,
      Chars.trim_eq_self]
    · rintro _ ⟨⟩
      rfl
    · rw [← List.append_assoc, List.getLast?_concat]
      rintro _ ⟨⟩
      rfl
  have hrelative : Chars.relative (lead ++ (inner ++ [')'])) = lead ++ (inner ++ [')']) := by
    rw [Chars.relative, Chars.hasNesting_append hlead]
    rfl
  have helement : Chars.ofElement (lead ++ (inner ++ [')'])) = lead.tail ++ (inner ++ [')']) := by
    rw [Chars.ofElement, Chars.replaceNesting_append hlead, Chars.replaceNesting_append hwhole,
      Chars.replaceNesting_of_not_hasNesting hplain]
    rfl
  have hnegated : Chars.negated? (lead.tail ++ (inner ++ [')'])) = some inner := by
    have hbalanced : Chars.isBalanced inner := Chars.isBalanced_of_nestingAfter? hwhole rfl
    change (if (inner ++ [')']).getLast? = some ')' ∧ Chars.isBalanced (inner ++ [')']).dropLast then
      some (inner ++ [')']).dropLast else none) = some inner
    rw [List.getLast?_concat, List.dropLast_concat, if_pos ⟨rfl, hbalanced⟩]
  rw [matchesRule, htext, hlist, List.any_cons, List.any_nil, Bool.or_false, hrelative, helement,
    E.matchesSelector_of_negated? hnegated]

theorem matchesRule_not_intercalate {parts : List String} (hne : parts ≠ [])
    (hparts : ∀ part ∈ parts, Chars.IsListItem part.toList) :
    E.matchesRule ("&:not(" ++ ", ".intercalate parts ++ ")") =
      !parts.any fun part => E.matchesSelector (Chars.ofElement part.toList) := by
  obtain ⟨hwhole, hsegment⟩ := segment_intercalate hne fun part hpart =>
    ⟨(hparts part hpart).whole, (hparts part hpart).uncut⟩
  have hlist : Chars.alternatives (", ".intercalate parts).toList = parts.map String.toList := by
    rw [Chars.alternatives, hsegment]
    exact List.map_congr_left fun part hpart => (hparts part hpart).trimmed
  have hnot := E.matchesRule_not hwhole (hasNesting_intercalate hparts)
  rw [String.ofList_toList, hlist, List.any_map] at hnot
  exact hnot

theorem matchesRule_negateSelectors {selector : String}
    (h : ∀ t ∈ Chars.alternatives selector.toList, Chars.IsOfElement t) :
    E.matchesRule (negateSelectors selector) = !E.matchesRule selector := by
  have hitem : ∀ t ∈ Chars.alternatives selector.toList,
      Chars.IsListItem (selectorToNegate (String.ofList t)).toList ∧
        Chars.ofElement (selectorToNegate (String.ofList t)).toList = Chars.ofElement t := by
    intro t ht
    have hspec := @isListItem_selectorToNegate (String.ofList t)
    rw [String.toList_ofList] at hspec
    obtain ⟨u, hu, rfl⟩ := List.mem_map.1 ht
    exact hspec (h _ ht) (Chars.isUncut_of_mem_segment hu).trim (Chars.trim_trim u)
  have hne : (Chars.alternatives selector.toList).map (selectorToNegate ∘ String.ofList) ≠ [] :=
    List.cons_ne_nil _ _
  have hsame : ((Chars.alternatives selector.toList).any fun t => E.matchesSelector
        (Chars.ofElement (selectorToNegate (String.ofList t)).toList)) = E.matchesRule selector := by
    rw [matchesRule, Bool.eq_iff_iff, List.any_eq_true, List.any_eq_true]
    refine exists_congr fun t => and_congr_right fun ht => ?_
    have hrelative : Chars.relative t = t := if_pos (h t ht).2.1
    rw [(hitem t ht).2, hrelative]
  rw [negateSelectors, map_trim_segment, List.map_map, E.matchesRule_not_intercalate hne,
    List.any_map, ← hsame]
  · rfl
  · intro part hpart
    obtain ⟨t, ht, rfl⟩ := List.mem_map.1 hpart
    exact (hitem t ht).1

end Environment

namespace Chars

def IsContainerName (s : List Char) : Prop := (∀ c ∈ s, isNameChar c) ∧ s ≠ [] ∧ s ≠ "not".toList

def IsContainerQuery (s : List Char) : Prop :=
  s.head? = some '(' ∨ "not (".toList <+: s ∨ ∃ name rest, IsContainerName name ∧ s = name ++ ' ' :: rest

theorem splitContainer_name {name s : List Char} (h : IsContainerName name) :
    splitContainer (name ++ ' ' :: s) = (name, ' ' :: s) := by
  have htake : (name ++ ' ' :: s).takeWhile isNameChar = name := by
    rw [List.takeWhile_append_of_pos h.1]
    exact List.append_nil name
  rw [splitContainer, htake, List.drop_left]
  exact if_pos ⟨h.2.1, h.2.2, rfl⟩

private theorem isWhole_name {s : List Char} (h : ∀ c ∈ s, isNameChar c) :
    IsWhole s ∧ IsUncut ',' {} s := by
  have hspecial : ∀ d ∈ ['\\', ',', '"', '\'', '(', '[', '\x7b', ')', ']', '\x7d'],
      isNameChar d = false := by decide
  refine isWhole_of_forall fun c hc hmem => ?_
  have hname := h c hc
  rw [hspecial c hmem] at hname
  cases hname

private theorem cutAt_name {name s : List Char} (h : IsContainerName name) :
    cutAt (· == ' ') (name ++ ' ' :: s) = some (name, s) :=
  cutAt_char_eq_some_iff.2 ⟨fun hmem => absurd (h.1 ' ' hmem) (by decide), rfl⟩

end Chars

/-- What becomes of a condition that is negated. -/
theorem negateCondition_cases {name params : String}
    (h : name = "container" → Chars.IsContainerQuery params.toList) :
    (∃ s, params.toList = 'n' :: 'o' :: 't' :: ' ' :: s ∧
      (negateCondition name params).toList = s ∧ (name = "container" → s.head? = some '(')) ∨
    ((negateCondition name params).toList = 'n' :: 'o' :: 't' :: ' ' :: params.toList ∧
      (name = "container" → params.toList.head? = some '(')) ∨
    name = "container" ∧ ∃ container query, Chars.IsContainerName container ∧
      params.toList = container ++ ' ' :: query ∧
      (negateCondition name params).toList =
        container ++ ' ' :: 'n' :: 'o' :: 't' :: ' ' :: query := by
  rw [negateCondition]
  split
  · next rest hrest =>
    obtain ⟨s, hs, rfl⟩ := Option.map_eq_some_iff.1 hrest
    have hparams : params.toList = 'n' :: 'o' :: 't' :: ' ' :: s :=
      (List.append_eq_of_isPrefixOf?_eq_some hs).symm
    refine .inl ⟨s, hparams, String.toList_ofList, fun hname => ?_⟩
    rw [hparams] at h
    rcases h hname with hbracket | ⟨u, hu⟩ | ⟨container, u, hcontainer, hu⟩
    · cases hbracket
    · cases hu
      rfl
    · have hsplit := Chars.splitContainer_name (s := u) hcontainer
      rw [← hu] at hsplit
      cases hsplit
  · next hnone =>
    dsimp only
    have hwhole : ("not " ++ params).toList = 'n' :: 'o' :: 't' :: ' ' :: params.toList := by simp
    split
    · next hnamed =>
      rw [Bool.and_eq_true, Bool.not_eq_true', beq_iff_eq] at hnamed
      obtain ⟨hname, hbracket⟩ := hnamed
      rcases h hname with hhead | ⟨u, hu⟩ | ⟨container, u, hcontainer, hu⟩
      · exact absurd hhead (head?_ne_of_startsWith hbracket)
      · rw [Text.afterLead?, ← hu] at hnone
        cases hnone
      · have hcut : Text.cutAt (· == ' ') params =
            some (String.ofList container, String.ofList u) := by
          rw [Text.cutAt, hu, Chars.cutAt_name hcontainer]
          rfl
        refine .inr (.inr ⟨hname, container, u, hcontainer, hu, ?_⟩)
        rw [hcut]
        simp
    · next hnamed =>
      refine .inr (.inl ⟨hwhole, fun hname => ?_⟩)
      rw [hname, beq_self_eq_true, Bool.true_and, Bool.not_eq_true', Bool.not_eq_false] at hnamed
      obtain ⟨u, hu⟩ := List.isPrefixOf_iff_prefix.1 hnamed
      rw [← hu]
      rfl

namespace Environment

variable (E : Environment)

theorem answers_not {name : String} {query : List Char}
    (h : name = "container" → query.head? = some '(') :
    E.answers name ('n' :: 'o' :: 't' :: ' ' :: query) = !E.answers name query := by
  by_cases hname : name = "container"
  · subst hname
    obtain ⟨s, rfl⟩ := List.head?_eq_some_iff.1 (h rfl)
    rfl
  · have hother : (name == "container") = false := beq_false_of_ne hname
    rw [answers, answers, hother]
    rfl

theorem answers_container_not {container query : List Char}
    (h : Chars.IsContainerName container) :
    E.answers "container" (container ++ ' ' :: 'n' :: 'o' :: 't' :: ' ' :: query) =
      !E.answers "container" (container ++ ' ' :: query) := by
  have htrim (s : List Char) : Chars.trimStart (container ++ s) = container ++ s := by
    obtain ⟨hchars, hne, -⟩ := h
    cases container with
    | nil => exact absurd rfl hne
    | cons c container =>
      have hblank : isBlank c = false := by
        have hc := hchars c List.mem_cons_self
        rw [Chars.isNameChar, Bool.and_eq_true, Bool.not_eq_true'] at hc
        exact hc.1
      rw [Chars.trimStart, List.cons_append, List.dropWhile_cons, hblank, if_neg Bool.false_ne_true]
  simp only [answers, beq_self_eq_true, if_true, htrim, Chars.splitContainer_name h]
  rfl

/-- Negation of a condition negates its first query and leaves the others. -/
theorem answers_negateCondition {name params : String}
    (h : name = "container" → Chars.IsContainerQuery params.toList) :
    E.answersFirst name (negateCondition name params) = (!E.answersFirst name params) ∧
      E.answersFurther name (negateCondition name params) = E.answersFurther name params := by
  have hnot (s : List Char) : Chars.segmentFrom ',' {} ('n' :: 'o' :: 't' :: ' ' :: s) =
      ('n' :: 'o' :: 't' :: ' ' :: (Chars.segmentFrom ',' {} s).1, (Chars.segmentFrom ',' {} s).2) :=
    rfl
  have hhead {s : List Char} (hs : s.head? = some '(') :
      (Chars.segmentFrom ',' {} s).1.head? = some '(' := by
    obtain ⟨t, rfl⟩ := List.head?_eq_some_iff.1 hs
    rfl
  rw [answersFirst, answersFirst, answersFurther, answersFurther]
  rcases negateCondition_cases h with ⟨s, hparams, hnegated, hs⟩ | ⟨hnegated, hs⟩ |
    ⟨rfl, container, query, hcontainer, hparams, hnegated⟩
  · rw [hparams, hnegated, hnot]
    exact ⟨by rw [E.answers_not fun hname => hhead (hs hname), Bool.not_not], rfl⟩
  · rw [hnegated, hnot]
    exact ⟨E.answers_not fun hname => hhead (hs hname), rfl⟩
  · obtain ⟨hwhole, huncut⟩ := Chars.isWhole_name hcontainer.1
    have hname (s : List Char) := Chars.segmentFrom_append (t := s) hwhole huncut
    have hblank (s : List Char) : Chars.segmentFrom ',' {} (' ' :: s) =
        (' ' :: (Chars.segmentFrom ',' {} s).1, (Chars.segmentFrom ',' {} s).2) := rfl
    rw [hparams, hnegated, hname, hname, hblank, hblank, hnot]
    exact ⟨E.answers_container_not hcontainer, rfl⟩

end Environment

/-- Whether the outermost wrapper asks something of the element, or is a condition in a usual form. -/
def Node.IsPlainWrapper : Node → Prop
  | .rule selector _ => ∀ t ∈ Chars.alternatives selector.toList, Chars.IsOfElement t
  | .atRule name params _ => name = "container" → Chars.IsContainerQuery params.toList
  | _ => False

namespace Environment

variable (E : Environment)

/-- Whether a query behind the first one of a wrapper holds. -/
def reachesFurther : Node → Bool
  | .atRule name params _ => E.answersFurther name params
  | _ => false

theorem applies_singleton (n : Node) : E.Applies [n] ↔ E.reaches n := by
  rw [Applies, List.isEmpty_cons, Bool.false_or, reachesOne, reachesOne, Bool.or_false]

/-- The wrapper that is negated applies where the one before does not, exactly if what is inside of
both applies and no further query holds. -/
theorem applies_change_negation_iff {modifier : Option Argument} {n n' : Node}
    (hplain : n.IsPlainWrapper) (hchange : VariantRule.negation.change modifier n = some n') :
    (E.Applies [n'] ↔ ¬ E.Applies [n]) ↔
      E.Applies n.children ∧ E.reachesFurther n = false := by
  rw [applies_singleton, applies_singleton, Applies]
  cases n with
  | rule selector ns =>
    cases modifier <;> cases hchange
    have hnone : E.reachesFurther (.rule selector ns) = false := rfl
    rw [reaches, reaches, E.matchesRule_negateSelectors hplain, Node.children, hnone]
    generalize E.matchesRule selector = outer
    generalize (ns.isEmpty || E.reachesOne ns) = inner
    cases outer <;> cases inner <;> decide
  | atRule name params ns =>
    cases modifier with
    | some => cases hchange
    | none =>
      obtain ⟨-, hchange⟩ := Option.ite_none_right_eq_some.1 hchange
      cases hchange
      obtain ⟨hfirst, hfurther⟩ := E.answers_negateCondition hplain
      rw [reaches, reaches, hfirst, hfurther, Node.children, reachesFurther]
      generalize E.answersFirst name params = first
      generalize E.answersFurther name params = further
      generalize (ns.isEmpty || E.reachesOne ns) = inner
      cases first <;> cases further <;> cases inner <;> decide
  | _ => exact absurd hplain id

end Environment

theorem exists_of_wrapSelectors {list : List String} {ns ms : List Node} (hlist : list ≠ [])
    (h : wrapSelectors list ns = some ms) : ∃ n, ms = [n] := by
  have hone {texts : List String} {ns ms : List Node} (h : wrapAtRules ns texts = some ms) :
      texts = [] ∧ ms = ns ∨ ∃ n, ms = [n] := by
    cases texts with
    | nil =>
      cases h
      exact .inl ⟨rfl, rfl⟩
    | cons text texts =>
      obtain ⟨inner, n, -, -, rfl⟩ := wrapAtRules_cons_cases h
      exact .inr ⟨n, rfl⟩
  rcases wrapSelectors_cases h with ⟨-, h⟩ | ⟨styles, -, -, h⟩
  · exact (hone h).resolve_left fun hnil => hlist hnil.1
  · rcases hone h with ⟨-, rfl⟩ | hn
    · exact ⟨_, rfl⟩
    · exact hn

namespace VariantRule

def isNegation : VariantRule → Bool
  | negation => true
  | _ => false

/-- The selectors and at-rules that declare a variant, if it is declared by some. -/
def list? : VariantRule → Option (List String)
  | selectors list => some list
  | _ => none

theorem eq_of_list? {rule : VariantRule} {list : List String} (h : rule.list? = some list) :
    rule = .selectors list := by
  cases rule with
  | selectors => exact congrArg _ (Option.some.inj h)
  | _ => cases h

end VariantRule

namespace Variants

variable {vs : Variants} {t : Theme} {dark : DarkMode}

/-- Whether a rule negates, if it is the one of `not` and stands around others. -/
def NegatesAsNot (name : String) (rule : VariantRule) : Prop :=
  name = "not" → rule.accepts ≠ {} → rule.isNegation

instance (name : String) (rule : VariantRule) : Decidable (NegatesAsNot name rule) :=
  inferInstanceAs (Decidable (_ → _ → _))

/-- The variant `not` negates, as long as it stands around others. -/
theorem Extends.rule_not {e : VariantEntry} {c : Compounds} (h : (builtin t dark).Extends vs)
    (hget : vs.get? "not" = some e) (haccepts : e.rule.accepts.meets c) : e.rule = .negation := by
  have halone {name : String} {rule : VariantRule} (hnone : rule.accepts = {}) :
      NegatesAsNot name rule := fun _ hne => absurd hnone hne
  have hbuiltin : ∀ p ∈ builtinRules t dark, NegatesAsNot p.1 p.2 :=
    forall_builtinRules (by decide +kernel) (fun _ _ => halone rfl) (halone rfl)
  have hall : vs.AllRules NegatesAsNot :=
    h.allRules (allRules_builtin hbuiltin) (fun _ _ => halone rfl) fun _ _ _ => halone rfl
  have hnegation : e.rule.isNegation := by
    refine hall.get? hget rfl fun hnone => ?_
    rw [hnone] at haccepts
    cases haccepts
  cases hrule : e.rule with
  | negation => rfl
  | _ =>
    rw [hrule] at hnegation
    cases hnegation

/-- The variant `not-V` is the complement of a variant `V` that selectors and at-rules declare, in
every environment in which what is inside of the outermost wrapper of `V` applies and no further query
of it holds, and in no other. -/
theorem applies_not_iff {s name : String} {modifier : Option Argument} {e : VariantEntry}
    {list : List String} {ns ms : List Node} (hvs : (builtin t dark).Extends vs)
    (hread : vs.read? s = some (.compound "not" modifier (.static name)))
    (hget : vs.get? name = some e) (hlist : e.rule.list? = some list)
    (hwrap : vs.wrap (.static name) [] = some ns)
    (hnot : vs.wrap (.compound "not" modifier (.static name)) [] = some ms)
    (hplain : ∀ n ∈ ns, n.IsPlainWrapper) (E : Environment) :
    ∃ n, ns = [n] ∧
      ((E.Applies ms ↔ ¬ E.Applies ns) ↔ E.Applies n.children ∧ E.reachesFurther n = false) := by
  have hrule := VariantRule.eq_of_list? hlist
  have hallows : vs.compoundsWith "not" (.static name) := (allows_of_readFrom? hread).1
  have hne : list ≠ [] := by
    rintro rfl
    refine produces_ne_of_compoundsWith hallows ?_
    rw [produces_eq rfl hget, hrule]
    rfl
  have hselectors : wrapSelectors list [] = some ns := by
    obtain ⟨e', he', hwrap⟩ := Option.bind_eq_some_iff.1 hwrap
    rw [hget] at he'
    cases he'
    rwa [hrule] at hwrap
  obtain ⟨n, rfl⟩ := exists_of_wrapSelectors hne hselectors
  refine ⟨n, rfl, ?_⟩
  rw [wrap, wrapWithin_compound] at hnot
  obtain ⟨frame, hframe, rfl⟩ := Option.map_eq_some_iff.1 hnot
  obtain ⟨entry, hentry, hframe⟩ := Option.bind_eq_some_iff.1 hframe
  obtain ⟨wrapped, hwrapped, hframe⟩ := Option.bind_eq_some_iff.1 hframe
  obtain ⟨-, hframe⟩ := Option.ite_none_left_eq_some.1 hframe
  have hsame : wrapped = [n] := Option.some.inj (hwrapped.symm.trans hwrap)
  subst hsame
  have haccepts : entry.rule.accepts.meets (compoundsOfSelectors list) := by
    rw [compoundsWith, hentry, produces_eq rfl hget, hrule] at hallows
    exact hallows
  rw [hvs.rule_not hentry haccepts] at hframe
  obtain ⟨n', hchange, hrest⟩ := Option.bind_eq_some_iff.1 ((List.mapM_cons ..).symm.trans hframe)
  cases hrest
  rw [fillEach_nil]
  exact E.applies_change_negation_iff (hplain n List.mem_cons_self) hchange

/-- What is inside of no wrapper applies, so that `not-rtl` is the complement of `rtl`. -/
theorem applies_not_iff_rtl : ∃ vs ns ms, (builtin {} .media).Extends vs ∧
    vs.read? "not-rtl" = some (.compound "not" none (.static "rtl")) ∧
    vs.wrap (.static "rtl") [] = some ns ∧
    vs.wrap (.compound "not" none (.static "rtl")) [] = some ms ∧
    ∀ E : Environment, E.Applies ms ↔ ¬ E.Applies ns := by
  let vs := builtin {} .media
  let selector := "&:where(:dir(rtl), [dir=\"rtl\"], [dir=\"rtl\"] *)"
  obtain ⟨hread, hentry, hsome⟩ :
      vs.read? "not-rtl" = some (.compound "not" none (.static "rtl")) ∧
      ((vs.get? "rtl").bind (·.rule.list?)) = some [selector] ∧
      (vs.wrap (.compound "not" none (.static "rtl")) []).isSome := by
    decide +kernel
  have hplain : (Node.rule selector []).IsPlainWrapper := by
    have hall : ∀ t ∈ Chars.alternatives selector.toList, Chars.IsOfElement t := by
      decide +kernel
    exact hall
  obtain ⟨e, he, hlist⟩ := Option.bind_eq_some_iff.1 hentry
  obtain ⟨ms, hnot⟩ := Option.isSome_iff_exists.1 hsome
  have hstyle : Text.startsWith selector "@" = false := by decide
  have hwrap : vs.wrap (.static "rtl") [] = some [.rule selector []] := by
    rw [wrap, wrapWithin, he]
    change e.rule.wrap _ none none [] = _
    rw [VariantRule.eq_of_list? hlist, VariantRule.wrap, wrapSelectors]
    simp [hstyle, wrapAtRules]
  refine ⟨vs, _, ms, .refl, hread, hwrap, hnot, fun E => ?_⟩
  obtain ⟨n, hn, hiff⟩ := applies_not_iff .refl hread he hlist hwrap hnot
    (List.forall_mem_singleton.2 hplain) E
  cases hn
  exact hiff.2 ⟨rfl, rfl⟩

def withSheet (list : List String) : Variants :=
  (builtin {} .media).register "sheet" (.selectors list)

/-- The negation of hovering in print is not its complement: neither applies in print where nothing
hovers. -/
theorem not_applies_not : ∃ (vs : Variants) (ns ms : List Node) (E : Environment),
    (builtin {} .media).Extends vs ∧
      vs.read? "not-sheet" = some (.compound "not" none (.static "sheet")) ∧
      vs.wrap (.static "sheet") [] = some ns ∧
      vs.wrap (.compound "not" none (.static "sheet")) [] = some ms ∧
      ¬ E.Applies ns ∧ ¬ E.Applies ms := by
  let vs := withSheet ["@media print", "&:hover"]
  have hvs : (builtin {} .media).Extends vs := .selectors .refl "sheet" _
  obtain ⟨hread, hentry, hsome⟩ :
      vs.read? "not-sheet" = some (.compound "not" none (.static "sheet")) ∧
      ((vs.get? "sheet").bind (·.rule.list?)) = some ["@media print", "&:hover"] ∧
      (vs.wrap (.compound "not" none (.static "sheet")) []).isSome := by
    decide +kernel
  obtain ⟨e, he, hlist⟩ := Option.bind_eq_some_iff.1 hentry
  obtain ⟨ms, hnot⟩ := Option.isSome_iff_exists.1 hsome
  have hwrap : vs.wrap (.static "sheet") [] =
      some [.atRule "media" "print" [.rule "&:hover" []]] := by
    rw [wrap, wrapWithin, he]
    change e.rule.wrap _ none none [] = _
    rw [VariantRule.eq_of_list? hlist]
    exact congrArg (fun s => some [Node.atRule "media" "print" [.rule s []]])
      (String.intercalate_singleton ..)
  let E : Environment := ⟨fun _ => false, fun _ _ _ => false⟩
  have hinner : ¬ E.Applies [.rule "&:hover" []] := by
    have hread : Chars.alternatives "&:hover".toList = ["&:hover".toList] ∧
        Chars.negated? (Chars.ofElement (Chars.relative "&:hover".toList)) = none := by decide
    rw [Environment.applies_singleton, Environment.reaches, Environment.matchesRule, hread.1,
      List.any_cons, E.matchesSelector_of_negated?_eq_none hread.2]
    exact Bool.false_ne_true
  have houter : ¬ E.Applies [.atRule "media" "print" [.rule "&:hover" []]] := by
    rw [Environment.applies_singleton]
    exact Bool.false_ne_true
  refine ⟨vs, _, ms, E, hvs, hread, hwrap, hnot, houter, fun happlies => ?_⟩
  obtain ⟨n, hn, hiff⟩ := applies_not_iff hvs hread he hlist hwrap hnot
    (List.forall_mem_singleton.2 fun h => absurd h (by decide)) E
  cases hn
  exact hinner (hiff.1 ⟨fun _ => houter, fun _ => happlies⟩).1

end Variants

end UtilityCss
