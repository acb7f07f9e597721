import UtilityCss.Proofs.Stylesheet.Normal
import UtilityCss.Proofs.Text.Blank

/-!
# String literals as values

The scan of a stylesheet knows that a quote behind a backslash does not end a string. The cleaning
of a value does not: it takes every quote of the kind that is open for its end. So a declaration with
a string literal for its value is always read as one declaration, but the literal stays as it is only
if no comment opens and no white space is to be collapsed where the cleaning sees no open quote.
-/

namespace UtilityCss

namespace Chars

/-- Whether a text may stand between two quotes: the quote and the backslash are only in it with a
backslash in front. -/
def IsLiteralBody (quote : Char) : List Char → Prop
  | [] => True
  | '\\' :: _ :: s => IsLiteralBody quote s
  | c :: s => c ≠ '\\' ∧ c ≠ quote ∧ IsLiteralBody quote s

/-- A text between two quotes. -/
def literal (quote : Char) (body : List Char) : List Char := quote :: body ++ [quote]

/-- What is left of a text at each place where no quote is open, if backslashes mean nothing. -/
def unquotedTails : Option Char → List Char → List (List Char)
  | _, [] => []
  | none, c :: s => (c :: s) :: unquotedTails (if isQuote c then some c else none) s
  | some q, c :: s => unquotedTails (if c == q then none else some q) s

def leadsBlank (s : List Char) : Bool := s.head?.any isBlank

/-- Whether a text begins with white space that is more than a single space. -/
def leadsRagged : List Char → Bool
  | [] => false
  | c :: s => isBlank c && (c != ' ' || leadsBlank s)

/-- The state in which a scan minds the same quote. -/
def scanIn : Option Char → Scan
  | none => .plain
  | some q => .quoted q

section Unquoted

variable {q : Option Char} {quote c : Char} {s t body : List Char}

theorem isBlank_eq_false_of_isQuote (hquote : isQuote quote) : isBlank quote = false := by
  rcases isQuote_iff.1 hquote with rfl | rfl <;> rfl

private theorem enter_eq (c : Char) :
    Scan.enter c = scanIn (if isQuote c then some c else none) := by
  rw [Scan.enter]
  split <;> rfl

private theorem leave_eq (quote c : Char) :
    Scan.leave quote c = scanIn (if c == quote then none else some quote) := by
  rw [Scan.leave]
  split <;> rfl

/-- Nothing is taken away exactly if no comment opens where no quote is open. -/
theorem stripComments_eq_self_iff (q : Option Char) (s : List Char) :
    stripComments (scanIn q) s = s ↔ ∀ t ∈ unquotedTails q s, ¬ "/*".toList <+: t := by
  induction s generalizing q with
  | nil => simp [stripComments, unquotedTails]
  | cons c s ih =>
    cases q with
    | some quote =>
      rw [scanIn, stripComments, unquotedTails, leave_eq, List.cons.injEq, ih]
      exact and_iff_right rfl
    | none =>
      rw [scanIn, unquotedTails, List.forall_mem_cons]
      by_cases hopen : "/*".toList <+: c :: s
      · obtain ⟨u, hu⟩ := hopen
        have hlength := (stripComments_sublist .comment u).length_le
        rw [← hu]
        change stripComments .comment u = '/' :: '*' :: u ↔ _
        refine iff_of_false (fun h => ?_) (fun h => h.1 ⟨u, rfl⟩)
        rw [h, List.length_cons, List.length_cons] at hlength
        omega
      · rw [stripComments, enter_eq, List.cons.injEq, ih, and_iff_right rfl, and_iff_right hopen]
        rintro u rfl rfl
        exact hopen ⟨u, rfl⟩

/-- Nothing is collapsed exactly if all white space outside of quotes is single spaces. `spaced` says
that there is one in front. -/
theorem collapseBlanks_eq_self_iff (q : Option Char) (spaced : Bool) (s : List Char) :
    collapseBlanks q spaced s = s ↔ (∀ t ∈ unquotedTails q s, ¬ leadsRagged t) ∧
      ¬ (q = none ∧ spaced ∧ leadsBlank s) := by
  induction s generalizing q spaced with
  | nil => simp [collapseBlanks, unquotedTails, leadsBlank]
  | cons c s ih =>
    cases q with
    | some quote =>
      rw [collapseBlanks, unquotedTails, List.cons.injEq, ih]
      simp
    | none =>
      have hlead : leadsBlank (c :: s) = isBlank c := rfl
      rw [collapseBlanks, unquotedTails, List.forall_mem_cons, leadsRagged, hlead]
      by_cases hblank : isBlank c
      · have hquote : isQuote c = false := by
          rw [Bool.eq_false_iff]
          intro hquote
          rw [isBlank_eq_false_of_isQuote hquote] at hblank
          cases hblank
        rw [if_pos hblank]
        cases spaced with
        | true =>
          have hlength := length_collapseBlanks_le none true s
          rw [if_pos rfl]
          refine iff_of_false (fun h => ?_) (fun h => h.2 ⟨rfl, rfl, hblank⟩)
          rw [h, List.length_cons] at hlength
          omega
        | false =>
          rw [if_neg Bool.false_ne_true, hquote, if_neg Bool.false_ne_true, List.cons.injEq, ih,
            hblank]
          by_cases hspace : c = ' '
          · subst hspace
            simp [and_comm]
          · simp [hspace, Ne.symm hspace]
      · rw [if_neg hblank, List.cons.injEq, ih]
        simp [hblank]

/-- Where the quote is not in the body, the cleaning sees the whole literal as quoted. -/
theorem unquotedTails_literal (hquote : isQuote quote) (hbody : quote ∉ body) :
    unquotedTails none (literal quote body) = [literal quote body] := by
  have hinside : unquotedTails (some quote) (body ++ [quote]) = [] := by
    induction body with
    | nil => simp [unquotedTails]
    | cons c body ih =>
      rw [List.mem_cons, not_or] at hbody
      rw [List.cons_append, unquotedTails, if_neg (by simpa using Ne.symm hbody.1), ih hbody.2]
  rw [literal, List.cons_append, unquotedTails, if_pos hquote, hinside]

end Unquoted

section Literal

variable {quote c : Char} {body name s t : List Char}

theorem run_literalBody {k : TextKind} (h : IsLiteralBody quote body) (d : Nat) :
    (Place.quoted quote d).run k body = some (.quoted quote d) := by
  fun_induction IsLiteralBody quote body with
  | case1 => rfl
  | case2 c s ih =>
    have hescape : (Place.quoted quote d).next k '\\' = some (.escaped (some quote) d) := rfl
    rw [Place.run_cons, hescape, Option.bind_some, Place.run_cons]
    exact ih h
  | case3 c s hne ih =>
    obtain ⟨hescape, hend, hs⟩ := h
    have hnext : (Place.quoted quote d).next k c = some (.quoted quote d) := by
      simp [Place.next, hescape, hend]
    rw [Place.run_cons, hnext]
    exact ih hs

theorem passes_literal (hquote : isQuote quote) (h : IsLiteralBody quote body) :
    Passes .whole (literal quote body) := by
  have hescape : quote ≠ '\\' := by
    rintro rfl
    exact absurd hquote (by decide)
  have hopen : (Place.plain 0 false).next .whole quote = some (.quoted quote 0) := by
    simp [Place.next, hescape, hquote]
  have hclose : (Place.quoted quote 0).run .whole [quote] = some (.plain 0 false) := by
    simp [Place.run, Place.next, hescape]
  refine ⟨false, ?_⟩
  rw [literal, List.cons_append, Place.run_cons, hopen, Option.bind_some,
    Place.run_append_of (run_literalBody h 0), hclose]

theorem trimEnd_literal (hquote : isQuote quote) (body : List Char) :
    trimEnd (literal quote body) = literal quote body :=
  trimEnd_concat (isBlank_eq_false_of_isQuote hquote)

theorem trim_literal (hquote : isQuote quote) (body : List Char) :
    trim (literal quote body) = literal quote body := by
  have hstart : trimStart (literal quote body) = literal quote body :=
    List.dropWhile_cons_of_neg (by simp [isBlank_eq_false_of_isQuote hquote])
  rw [trim, hstart, trimEnd_literal hquote]

theorem beforeImportant?_literal (hquote : isQuote quote) (body : List Char) :
    beforeImportant? (literal quote body) = none := by
  have hend := trimEnd_literal hquote body
  have hreverse : (literal quote body).reverse = quote :: (quote :: body).reverse := by
    simp [literal]
  rw [beforeImportant?, hend, hreverse]
  rcases isQuote_iff.1 hquote with rfl | rfl <;> rfl

end Literal

end Chars

section Declaration

variable {property value : String} {quote : Char} {body text : List Char}

theorem readDeclaration_name (hname : Chars.isAtName property.toList) (text : List Char) :
    readDeclaration (property.toList ++ ':' :: text) =
      .ok (.decl property (tidyValue (Chars.stripComments .plain) property text).1
        (tidyValue (Chars.stripComments .plain) property text).2) := by
  obtain ⟨hne, hall⟩ := Chars.isAtName_iff.1 hname
  have hstrip : Chars.stripComments .plain (property.toList ++ ':' :: text) =
      property.toList ++ ':' :: Chars.stripComments .plain text := by
    rw [Chars.stripComments_tame fun c hc => Chars.isTame_of_isNameChar (hall c hc)]
    rfl
  have hcolon : ∀ c ∈ property.toList, (c == ':') = false := by
    intro c hc
    rw [beq_eq_false_iff_ne]
    rintro rfl
    exact absurd (hall ':' hc) (by decide +kernel)
  have htrim : Chars.trim property.toList = property.toList :=
    Chars.trim_eq_self_of_forall fun c hc => isBlank_eq_false_of_isNameChar (hall c hc)
  rw [readDeclaration, hstrip, Chars.cutAt_append hcolon (by decide)]
  dsimp only
  rw [htrim, List.isEmpty_eq_false_iff.2 hne, String.ofList_toList]
  rfl

theorem passes_name_literal (hname : Chars.isAtName property.toList) (hquote : isQuote quote)
    (hbody : Chars.IsLiteralBody quote body) :
    Chars.Passes .whole (property.toList ++ ':' :: Chars.literal quote body) := by
  obtain ⟨-, hall⟩ := Chars.isAtName_iff.1 hname
  have hfront : Chars.Passes .whole (property.toList ++ [':']) := by
    refine Chars.passes_tame fun c hc => ?_
    rcases List.mem_append.1 hc with hc | hc
    · exact Chars.isTame_of_isNameChar (hall c hc)
    · obtain rfl := List.mem_singleton.1 hc
      rfl
  have hhead : (Chars.literal quote body).head? = some quote := rfl
  have hliteral := Chars.passes_literal hquote hbody
  rw [List.append_cons]
  apply hfront.append hliteral <;> rcases isQuote_iff.1 hquote with rfl | rfl <;> simp [hhead]

theorem leads_name (hname : Chars.isAtName property.toList) (text : List Char) :
    Chars.leads (property.toList ++ text) := by
  obtain ⟨hne, hall⟩ := Chars.isAtName_iff.1 hname
  cases hproperty : property.toList with
  | nil => exact absurd hproperty hne
  | cons c s =>
    have hc : isNameChar c := hall c (by rw [hproperty]; exact List.mem_cons_self)
    have hat : c ≠ '@' := by
      rintro rfl
      exact absurd hc (by decide +kernel)
    have hgap := Chars.isNodeGap_of_isBlank (isBlank_eq_false_of_isNameChar hc)
    simp [Chars.leads, hat, hgap]

theorem parse_name_literal (hname : Chars.isAtName property.toList) (hquote : isQuote quote)
    (hbody : Chars.IsLiteralBody quote body) :
    let tidy := tidyValue (Chars.stripComments .plain) property (Chars.literal quote body)
    parse (property ++ ":" ++ String.ofList (Chars.literal quote body) ++ ";") =
      .ok [.decl property tidy.1 tidy.2] := by
  intro tidy
  let text := property.toList ++ ':' :: Chars.literal quote body
  have htext : (property ++ ":" ++ String.ofList (Chars.literal quote body) ++ ";").toList =
      text ++ ';' :: [] := by
    simp [text]
  have hpass : Chars.Passes .whole text := passes_name_literal hname hquote hbody
  have hstep : nextToken (Chars.dropGap (text ++ ';' :: [])) =
      .ok (some (.leaf (.decl property tidy.1 tidy.2), [])) := by
    rw [nextToken_of_leads hpass (leads_name hname _) (by simp [text]) (by simp), ruleStep,
      hpass.scanPrelude (by decide)]
    change (declarationStep (text, [';'])).map some = _
    rw [declarationStep, readDeclaration_name hname]
    rfl
  rw [parse_eq_resume, htext, resume_leaf hstep, resume_end]
  rfl

/-- Cleaning keeps a literal exactly if it takes no comment and no white space away from it. -/
theorem tidyValue_literal_iff (hquote : isQuote quote) (property : String) (body : List Char) :
    tidyValue (Chars.stripComments .plain) property (Chars.literal quote body) =
        (String.ofList (Chars.literal quote body), false) ↔
      ∀ t ∈ Chars.unquotedTails none (Chars.literal quote body), ¬ "/*".toList <+: t ∧
        (¬ Chars.isCustomProperty property.toList → ¬ Chars.leadsRagged t) := by
  have hstrip := Chars.stripComments_eq_self_iff none (Chars.literal quote body)
  have hcollapse := Chars.collapseBlanks_eq_self_iff none false (Chars.literal quote body)
  rw [Chars.scanIn] at hstrip
  have hends := Chars.trim_literal hquote body
  have hmark := Chars.beforeImportant?_literal hquote body
  generalize Chars.literal quote body = text at hstrip hcollapse hends hmark
  constructor
  · intro h
    rw [tidyValue, Prod.mk.injEq, Option.isSome_eq_false_iff, Option.isNone_iff_eq_none] at h
    obtain ⟨hvalue, hnone⟩ := h
    rw [hnone, Option.map_none, Option.getD_none, String.ofList_inj] at hvalue
    by_cases hcustom : Chars.isCustomProperty property.toList
    · rw [if_pos hcustom] at hvalue
      have htrimmed : Chars.IsTrimmed text := hvalue
      exact fun t ht => ⟨hstrip.1 htrimmed.stripComments t ht, fun h => absurd hcustom h⟩
    · rw [if_neg hcustom] at hvalue
      have hclean : Chars.IsClean text := hvalue
      exact fun t ht => ⟨hstrip.1 hclean.isTrimmed.stripComments t ht,
        fun _ => (hcollapse.1 hclean.collapseBlanks).1 t ht⟩
  · intro h
    have htrimmed : Chars.IsTrimmed text := by
      rw [Chars.IsTrimmed, hstrip.2 fun t ht => (h t ht).1, hends]
    have hclean : Chars.isCustomProperty property.toList ∨ Chars.IsClean text := by
      by_cases hcustom : Chars.isCustomProperty property.toList
      · exact .inl hcustom
      · right
        rw [Chars.IsClean, Chars.cleanText, show Chars.trim _ = text from htrimmed]
        exact hcollapse.2 ⟨fun t ht => (h t ht).2 hcustom, by simp⟩
    have htidy : tidyValue (Chars.stripComments .plain) property
        (valueText (String.ofList text) false) = (String.ofList text, false) :=
      tidyValue_valueText (by rwa [String.toList_ofList]) (by rwa [String.toList_ofList])
        (by rwa [String.toList_ofList])
    rwa [valueText, if_neg Bool.false_ne_true, String.append_empty, String.toList_ofList] at htidy

/-- A declaration of a name with a string literal is read as one declaration of that name. Its value
is the literal, without a mark of importance, exactly if no comment opens in it, and in the value of
no custom property white space is anything but single spaces, at the places where no quote is open
when backslashes mean nothing. That is so if the literal holds no escaped quote of its own kind. -/
theorem parse_literal (hname : Chars.isAtName property.toList) (hquote : isQuote quote)
    (hbody : Chars.IsLiteralBody quote body) :
    ∃ value important,
      parse (property ++ ":" ++ String.ofList (Chars.literal quote body) ++ ";") =
        .ok [.decl property value important] ∧
      ((value = String.ofList (Chars.literal quote body) ∧ important = false) ↔
        ∀ t ∈ Chars.unquotedTails none (Chars.literal quote body), ¬ "/*".toList <+: t ∧
          (¬ Chars.isCustomProperty property.toList → ¬ Chars.leadsRagged t)) ∧
      (quote ∉ body → value = String.ofList (Chars.literal quote body) ∧ important = false) := by
  have hiff := tidyValue_literal_iff hquote property body
  rw [Prod.ext_iff] at hiff
  refine ⟨_, _, parse_name_literal hname hquote hbody, hiff, fun h => hiff.2 ?_⟩
  rw [Chars.unquotedTails_literal hquote h, List.forall_mem_singleton]
  rcases isQuote_iff.1 hquote with rfl | rfl <;> simp [Chars.literal, Chars.leadsRagged, isBlank]

/-- The escaped quotes are taken for an end and a new beginning, so blanks and the sign of a comment
between them stay. -/
theorem parse_literal_content :
    let body := "\\\"x\\\"  /*y*/".toList
    parse ("content" ++ ":" ++ String.ofList (Chars.literal '"' body) ++ ";") =
      .ok [.decl "content" (String.ofList (Chars.literal '"' body)) false] := by
  intro body
  have hbody : Chars.IsLiteralBody '"' body := by
    simp [body, Chars.IsLiteralBody]
  have hname : Chars.isAtName "content".toList := by decide +kernel
  obtain ⟨value, important, hparse, hiff, -⟩ :=
    parse_literal hname rfl hbody
  obtain ⟨rfl, rfl⟩ := hiff.2 (by decide +kernel)
  exact hparse

/-- Behind an escaped quote two blanks become one. -/
theorem parse_literal_ne : ∃ property quote body, Chars.isAtName property.toList ∧ isQuote quote ∧
    Chars.IsLiteralBody quote body ∧
    parse (property ++ ":" ++ String.ofList (Chars.literal quote body) ++ ";") ≠
      .ok [.decl property (String.ofList (Chars.literal quote body)) false] := by
  have hbody : Chars.IsLiteralBody '"' "a\\\"  b".toList := by
    simp [Chars.IsLiteralBody]
  have htidy : tidyValue (Chars.stripComments .plain) "content"
      (Chars.literal '"' "a\\\"  b".toList) = ("\"a\\\" b\"", false) := by decide +kernel
  refine ⟨"content", '"', "a\\\"  b".toList, by decide +kernel, rfl, hbody, ?_⟩
  rw [parse_name_literal (by decide +kernel) rfl hbody, htidy]
  intro h
  rw [Except.ok.injEq, List.cons.injEq, Node.decl.injEq] at h
  exact absurd h.1.2.1 (by decide)

end Declaration

end UtilityCss
