import UtilityCss.Import.Basic
import UtilityCss.Proofs.Stylesheet.Literal

/-!
# The names of local imports

The parameters of a local import are a string literal and conditions. An import is read for one if
nothing stands behind the literal, or a blank. A condition that follows the closing quote at once
belongs to the same word, and what is not a literal as a whole is not taken for a name.
-/

namespace UtilityCss

namespace Chars

variable {quote : Char} {body : List Char}

theorem uncut_literalBody (sep : Char) (h : IsLiteralBody quote body) :
    nestingAfter? ⟨some quote, []⟩ body = some ⟨some quote, []⟩ ∧
      IsUncut sep ⟨some quote, []⟩ body := by
  fun_induction IsLiteralBody quote body with
  | case1 => exact ⟨rfl, rfl⟩
  | case2 c s ih => exact ih h
  | case3 c s hne ih =>
    obtain ⟨hescape, hend, hs⟩ := h
    have hnext : Nesting.next? ⟨some quote, []⟩ c = some ⟨some quote, []⟩ := by
      simp [Nesting.next?, Nesting.next, hend]
    rw [nestingAfter?_cons hescape, hnext, Option.bind_some, isUncut_cons hescape,
      ← eq_next_of_next? hnext]
    exact ⟨(ih hs).1, by simp [Nesting.isTop], (ih hs).2⟩

theorem uncut_literal (sep : Char) (hquote : isQuote quote) (h : IsLiteralBody quote body) :
    nestingAfter? {} (literal quote body) = some {} ∧ IsUncut sep {} (literal quote body) := by
  have hescape : quote ≠ '\\' := by
    rintro rfl
    exact absurd hquote (by decide)
  have hcloser : isCloser quote = false := by
    rcases isQuote_iff.1 hquote with rfl | rfl <;> rfl
  have hopen : Nesting.next? {} quote = some ⟨some quote, []⟩ := by
    simp [Nesting.next?, Nesting.next, hquote, hcloser]
  have hclose : Nesting.next? ⟨some quote, []⟩ quote = some {} := by
    simp [Nesting.next?, Nesting.next]
  have hend : nestingAfter? ⟨some quote, []⟩ [quote] = some {} ∧
      IsUncut sep ⟨some quote, []⟩ [quote] := by
    rw [nestingAfter?_cons hescape, hclose, isUncut_cons hescape]
    exact ⟨rfl, by simp [Nesting.isTop], rfl⟩
  have hbody := uncut_literalBody sep h
  rw [literal, List.cons_append, nestingAfter?_cons hescape, hopen, Option.bind_some,
    isUncut_cons hescape, ← eq_next_of_next? hopen, nestingAfter?_append hbody.1]
  exact ⟨hend.1, by simp [hquote], hbody.2.append hbody.1 hend.2⟩

theorem segment_literal_append {rest : List Char} (hquote : isQuote quote)
    (h : IsLiteralBody quote body) (hrest : ∀ c ∈ rest.head?, c = ' ') :
    ∃ parts, segment ' ' (literal quote body ++ rest) = literal quote body :: parts := by
  have hliteral := uncut_literal ' ' hquote h
  rw [segment, segmentFrom_append hliteral.1 hliteral.2]
  cases rest with
  | nil => exact ⟨[], by rw [segmentFrom, List.append_nil]⟩
  | cons c rest =>
    obtain rfl := hrest c rfl
    rw [segmentFrom_cons (by decide)]
    exact ⟨_, by rw [if_pos (by rfl), List.append_nil]⟩

end Chars

theorem Text.unquote?_literal {quote : Char} (hquote : isQuote quote) (body : List Char) :
    Text.unquote? (String.ofList (Chars.literal quote body)) = some (String.ofList body) := by
  have hlead : List.isPrefixOf? [quote] (Chars.literal quote body) = some (body ++ [quote]) :=
    if_pos (beq_self_eq_true quote)
  have htail : List.isSuffixOf? [quote] (body ++ [quote]) = some body := by
    have hreverse : List.isPrefixOf? [quote] (body ++ [quote]).reverse = some body.reverse := by
      rw [List.reverse_append]
      exact if_pos (beq_self_eq_true quote)
    change (List.isPrefixOf? [quote] (body ++ [quote]).reverse).map List.reverse = some body
    rw [hreverse, Option.map_some, List.reverse_reverse]
  rcases isQuote_iff.1 hquote with rfl | rfl
  · simp [Text.unquote?, Text.afterLead?, Text.beforeTail?, hlead, htail]
  · have hother : List.isPrefixOf? ['"'] (Chars.literal '\'' body) = none := rfl
    simp [Text.unquote?, Text.afterLead?, Text.beforeTail?, hother, hlead, htail]

namespace Import

/-- The parameters of an import are a string literal that is the name of a local stylesheet, and
`conditions` behind it. -/
def IsLocal (params name : String) (conditions : List Char) : Prop :=
  isRemote name = false ∧ ∃ quote body, isQuote quote ∧ Chars.IsLiteralBody quote body ∧
    name = String.ofList body ∧
    (Text.trim params).toList = Chars.literal quote body ++ conditions

private theorem name_add (i : Import) (part : String) : (i.add part).name = i.name := by
  grind [add]

private theorem name_foldl_add (i : Import) (parts : List String) :
    (parts.foldl add i).name = i.name := by
  induction parts generalizing i with
  | nil => rfl
  | cons part parts ih => rw [List.foldl_cons, ih, name_add]

/-- A local import is read if nothing but a blank follows the closing quote. -/
theorem exists_read?_of_isLocal {params name : String} {conditions : List Char}
    (h : IsLocal params name conditions) (hblank : ∀ c ∈ conditions.head?, c = ' ') :
    ∃ i, read? params = some i ∧ i.name = name := by
  obtain ⟨hremote, quote, body, hquote, hbody, rfl, hparams⟩ := h
  obtain ⟨parts, hparts⟩ := Chars.segment_literal_append hquote hbody hblank
  have hfirst : Text.trim (String.ofList (Chars.literal quote body)) =
      String.ofList (Chars.literal quote body) := by
    rw [Text.trim, String.toList_ofList, Chars.trim_literal hquote]
  have hfilled : (String.ofList (Chars.literal quote body)).isEmpty = false := by
    rw [Bool.eq_false_iff, Ne, String.isEmpty_iff, String.ofList_eq_empty_iff]
    exact List.cons_ne_nil _ _
  unfold read?
  rw [segment, hparams, hparts, List.map_cons, List.map_cons, hfirst,
    List.filter_cons_of_pos (by rw [hfilled]; rfl)]
  dsimp only
  rw [Text.unquote?_literal hquote, Option.bind_some, hremote]
  exact ⟨_, rfl, name_foldl_add _ _⟩

end Import

end UtilityCss
