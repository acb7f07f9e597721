import UtilityCss.Proofs.Stylesheet.Hidden

/-!
# Comments that are not hidden from the parser

Where a comment is not hidden, there is a text for it that ends the token and leaves a statement that
is none, so that the whole stylesheet is refused, or there are two texts of which different digits are
left in the tree. So `parse_comment_iff` says for every place in every stylesheet whether what is
written in a comment there can matter.
-/

namespace UtilityCss

namespace CommentText

/-- Whether some text in a comment behind `u` and in front of `v` is refused, if all of them come to
the same. -/
def ShowsComment (v u : List Char) : Prop := ∀ o : Opened,
  (∀ t t', Chars.IsCommentText t → Chars.IsCommentText t' →
      outcome o (u ++ Chars.commented t v) = outcome o (u ++ Chars.commented t' v)) →
    ∃ t, Chars.IsCommentText t ∧ outcome o (u ++ Chars.commented t v) = none

section Shown

variable {u v s t r : List Char} {token token' : Token} {p : Cursor} {slash : Bool} {d e : Nat}

private theorem nextToken_ne_none (h : s ≠ []) : nextToken s ≠ .ok none := by
  have hmap {e : Step} : e.map some ≠ .ok none := by
    cases e <;> simp [Except.map]
  unfold nextToken
  split
  · exact absurd rfl h
  · simp
  · split <;> simp
  · exact hmap
  · exact hmap

theorem outcome_letter (o : Opened) (w : List Char) : outcome o ('a' :: ';' :: w) = none :=
  outcome_of_error (e := .notDeclaration "a") rfl o

private theorem outcome_semicolon_letter (o : Opened) (w : List Char) :
    outcome o (';' :: 'a' :: ';' :: w) = none :=
  outcome_of_error (e := .notDeclaration "a") rfl o

private theorem outcome_star_slash (o : Opened) (w : List Char) :
    outcome o ('*' :: '/' :: ';' :: w) = none :=
  outcome_of_error (e := .notDeclaration "*/") rfl o

theorem ShowsComment.of_refused (hne : Chars.dropGap u ≠ []) (ht : Chars.IsCommentText t)
    (h : ∀ token r, nextToken (Chars.dropGap u ++ Chars.commented t v) = .ok (some (token, r)) →
      ∀ o, outcome o r = none) : ShowsComment v u := by
  refine fun o _ => ⟨t, ht, outcome_eq_none ?_ (nextToken_ne_none ?_) o⟩
  · rw [Chars.dropGap_append hne]
    exact h
  · rw [Chars.dropGap_append hne]
    exact List.append_ne_nil_of_left_ne_nil hne _

theorem ShowsComment.of_error (hne : Chars.dropGap u ≠ []) (ht : Chars.IsCommentText t)
    (h : ∃ e, nextToken (Chars.dropGap u ++ Chars.commented t v) = .error e) : ShowsComment v u := by
  obtain ⟨e, he⟩ := h
  refine .of_refused hne ht fun token r hnext => ?_
  rw [he] at hnext
  cases hnext

/-- Two tokens with different digits do not come to the same. -/
theorem ShowsComment.of_digit (hne : Chars.dropGap u ≠ []) {step step' : Token × List Char}
    (h : nextToken (Chars.dropGap u ++ Chars.commented ['/', '0'] v) = .ok (some step))
    (h' : nextToken (Chars.dropGap u ++ Chars.commented ['/', '1'] v) = .ok (some step'))
    (hend : step.2 = step'.2) (hzeros : step.1.zeros ≠ step'.1.zeros) : ShowsComment v u := by
  obtain ⟨token, r⟩ := step
  obtain ⟨token', r'⟩ := step'
  obtain rfl : r = r' := hend
  intro o hsame
  refine ⟨['/', '0'], rfl, ?_⟩
  have hsame := hsame ['/', '0'] ['/', '1'] rfl rfl
  rw [← Chars.dropGap_append hne] at h h'
  rw [outcome_of_nextToken h'] at hsame
  rw [Option.eq_none_iff_forall_ne_some]
  intro ns hns
  rw [hns, eq_comm, Option.bind_eq_some_iff] at hsame
  rw [outcome_of_nextToken h, Option.bind_eq_some_iff] at hns
  obtain ⟨first, hfirst, hns⟩ := hns
  obtain ⟨second, hsecond, hns'⟩ := hsame
  -- the same text follows both tokens, so as many digits stand in front of it
  have hopen := zeros_eq_of_outcome hns hns'
  rw [Opened.zeros_push hfirst, Opened.zeros_push hsecond] at hopen
  exact hzeros (Nat.add_left_cancel hopen)

/-- A digit in a comment is left where the removal of comments has something open. -/
theorem count_stripComments_commented
    (h : Scanner.strip.run (.plain false, 0) s = some (p, e)) (hp : p.isPlain = false)
    (w : List Char) : (Chars.stripComments .plain (s ++ Chars.commented ['/', '0'] w)).count '0' =
      (Chars.stripComments .plain (s ++ Chars.commented ['/', '1'] w)).count '0' + 1 := by
  obtain ⟨hescaped, front, hrun⟩ := Chars.stripComments_run rfl h
  obtain ⟨front', q, hdigit⟩ :=
    Chars.stripComments_digit hp hescaped fun q => Scanner.isQuote_of_run h
  have hstrip (c : Char) (hc : c ∈ ['0', '1']) :
      Chars.stripComments .plain (s ++ Chars.commented ['/', c] w) =
        front ++ (front' ++ c :: Chars.stripComments q ('*' :: '/' :: w)) := by
    have hwhole := hrun (Chars.commented ['/', c] w)
    rw [← hdigit c hc]
    exact hwhole
  rw [hstrip '0' (by simp), hstrip '1' (by simp)]
  simp only [List.count_append, List.count_cons_self, List.count_cons_of_ne (by decide : '1' ≠ '0')]
  omega

section AtRule

variable {name text text' rest front back : List Char} {c : Char}

theorem dropSemicolon_append (c : Char) (back w : List Char) :
    Chars.dropSemicolon (c :: (back ++ w)) = Chars.dropSemicolon (c :: back) ++ w := by
  unfold Chars.dropSemicolon
  split <;> simp_all

theorem zeros_cleanText (text : List Char) :
    zeros (cleanText text) = (Chars.stripComments .plain text).count '0' := by
  rw [zeros, cleanText, String.toList_ofList, Chars.count_cleanText rfl]

theorem atRuleToken_of_head? (h : rest.head? ≠ some '{') (name text : List Char) :
    atRuleToken name (text, rest) =
      (.leaf (.statement (String.ofList name) (cleanText text)), Chars.dropSemicolon rest) := by
  rw [atRuleToken]
  split
  · next r hrest =>
    obtain rfl : rest = '{' :: r := hrest
    exact absurd rfl h
  · rfl

theorem zeros_atRuleToken (name text text' rest : List Char) :
    (atRuleToken name (text, rest)).1.zeros = (Chars.stripComments .plain text).count '0' ∧
      (atRuleToken name (text, rest)).2 = (atRuleToken name (text', rest)).2 := by
  rw [← zeros_cleanText]
  by_cases hbrace : rest.head? = some '{'
  · obtain ⟨back, rfl⟩ := List.head?_eq_some_iff.1 hbrace
    exact ⟨rfl, rfl⟩
  · rw [atRuleToken_of_head? hbrace, atRuleToken_of_head? hbrace]
    exact ⟨rfl, rfl⟩

private theorem exists_atRuleToken (name front : List Char) (c : Char) (back : List Char) :
    ∃ token r, ∀ w, atRuleToken name (front, c :: (back ++ w)) = (token, r ++ w) := by
  by_cases hc : c = '{'
  · subst hc
    exact ⟨.openBlock (.atRule (String.ofList name) (cleanText front)), back, fun w => rfl⟩
  · refine ⟨.leaf (.statement (String.ofList name) (cleanText front)),
      Chars.dropSemicolon (c :: back), fun w => ?_⟩
    rw [← dropSemicolon_append, atRuleToken_of_head?]
    simpa using hc

/-- The text of an at-rule shows a comment where the removal of comments has something open. -/
theorem ShowsComment.of_strip_at (h : Chars.dropGap u = '@' :: s)
    (hname : (s.takeWhile isNameChar).isEmpty = false)
    (hscan : Scanner.prelude.run (.plain false, 0) (s.dropWhile isNameChar) = some (.plain slash, d))
    (hstrip : Scanner.strip.run (.plain false, 0) (s.dropWhile isNameChar) = some (p, e))
    (hp : p.isPlain = false) : ShowsComment v u := by
  have hne : Chars.dropGap u ≠ [] := by
    rw [h]
    exact List.cons_ne_nil _ _
  have hnext := nextToken_at hname
  rw [← h] at hnext
  cases hv : Chars.scanPrelude .plain d v with
  | error e =>
    refine .of_error hne Chars.isCommentText_nil ⟨e, ?_⟩
    rw [hnext, Chars.scanPrelude_hidden hscan Chars.isCommentText_nil, hv]
    rfl
  | ok q =>
    have hread {t : List Char} (ht : Chars.IsCommentText t) :
        nextToken (Chars.dropGap u ++ Chars.commented t v) =
          .ok (some (atRuleToken (s.takeWhile isNameChar)
            (s.dropWhile isNameChar ++ Chars.commented t q.1, q.2))) := by
      rw [hnext, Chars.scanPrelude_hidden hscan ht, hv]
      rfl
    obtain ⟨hzeros, hend⟩ := zeros_atRuleToken (s.takeWhile isNameChar)
      (s.dropWhile isNameChar ++ Chars.commented ['/', '0'] q.1)
      (s.dropWhile isNameChar ++ Chars.commented ['/', '1'] q.1) q.2
    obtain ⟨hzeros', -⟩ := zeros_atRuleToken (s.takeWhile isNameChar)
      (s.dropWhile isNameChar ++ Chars.commented ['/', '1'] q.1) [] q.2
    have hcount := count_stripComments_commented hstrip hp q.1
    refine .of_digit hne (hread rfl) (hread rfl) hend ?_
    rw [hzeros, hzeros']
    omega

/-- An at-rule ends in front of the comment, or hides it, or shows it. -/
theorem tokenEnds_or_hides_or_shows_of_at (h : Chars.dropGap u = '@' :: s) :
    (∃ r, TokenEnds v (Chars.dropGap u) r) ∨ HidesComment v u ∨ ShowsComment v u := by
  have hne : Chars.dropGap u ≠ [] := by
    rw [h]
    exact List.cons_ne_nil _ _
  cases hname : (s.takeWhile isNameChar).isEmpty with
  | true =>
    refine .inr (.inr (.of_error hne Chars.isCommentText_nil ?_))
    rw [h]
    exact nextToken_at_of_isEmpty hname [] v
  | false =>
    have hnext := nextToken_at hname
    rw [← h] at hnext
    cases hrun : Scanner.prelude.run (.plain false, 0) (s.dropWhile isNameChar) with
    | none =>
      obtain ⟨front, c, back, -, -, hscan⟩ := Chars.scanPrelude_of_run_eq_none hrun
      obtain ⟨token, r, htoken⟩ := exists_atRuleToken (s.takeWhile isNameChar) front c back
      refine .inl ⟨r, token.mute, fun t ht => ⟨token, rfl, ?_⟩⟩
      rw [hnext, hscan, Except.map, htoken]
      rfl
    | some place =>
      obtain ⟨p, d⟩ := place
      cases hplain : p.isPlain with
      | false =>
        obtain ⟨t, ht, hbreak⟩ := Chars.exists_scanPrelude_breakout hrun hplain
        obtain ⟨front, back, hscan⟩ := hbreak v
        refine .inr (.inr (.of_refused hne ht fun token r h => ?_))
        rw [hnext, hscan] at h
        cases h
        exact fun o => outcome_letter o back
      | true =>
        obtain ⟨slash, rfl⟩ := p.exists_of_isPlain hplain
        obtain ⟨⟨p', e⟩, hstrip⟩ := Chars.exists_run_strip (.plain false, 0) (s.dropWhile isNameChar)
        cases hplain' : p'.isPlain with
        | true =>
          obtain ⟨slash', rfl⟩ := p'.exists_of_isPlain hplain'
          exact .inr (.inl (.inAtRule h hrun hstrip))
        | false => exact .inr (.inr (.of_strip_at h hname hrun hstrip hplain'))

end AtRule

section Rule

variable {text rest front back : List Char} {c : Char}

theorem colon_mem_of_readDeclaration {n : Node} (h : readDeclaration text = .ok n) : ':' ∈ text := by
  rw [readDeclaration] at h
  dsimp only at h
  split at h
  · cases h
  · next front back hcut =>
    obtain ⟨-, c, hc, hstrip⟩ := Chars.cutAt_eq_some_iff.1 hcut
    obtain rfl : c = ':' := eq_of_beq hc
    refine (Chars.stripComments_sublist .plain text).subset ?_
    rw [hstrip]
    simp

theorem exists_declarationStep (hread : readDeclaration front = .ok n) (c : Char) (back w : List Char) :
    declarationStep (front, c :: (back ++ w)) =
      .ok (.leaf n, Chars.dropSemicolon (c :: back) ++ w) := by
  rw [declarationStep, hread, ← dropSemicolon_append]
  rfl

/-- A declaration that a comment's text ends, with a statement behind it that is none. -/
theorem ShowsComment.of_declarationStep (hne : Chars.dropGap u ≠ []) (ht : Chars.IsCommentText t)
    (h : nextToken (Chars.dropGap u ++ Chars.commented t v) =
      (declarationStep (front, ';' :: 'a' :: ';' :: back)).map some) : ShowsComment v u := by
  refine .of_refused hne ht fun token r hnext => ?_
  rw [h] at hnext
  cases hstep : declarationStep (front, ';' :: 'a' :: ';' :: back) with
  | error e =>
    rw [hstep] at hnext
    cases hnext
  | ok step =>
    obtain ⟨token', r'⟩ := step
    have hrest := rest_of_declarationStep hstep
    rw [hstep] at hnext
    cases hnext
    rw [hrest]
    exact fun o => outcome_letter o back

/-- The value of a custom property with blocks ends in front of a comment or shows it. -/
theorem tokenEnds_or_shows_of_value (hne : Chars.dropGap u ≠ [])
    (h : ∀ t, Chars.IsCommentText t → ':' ∈ t ∨ ':' ∈ Chars.dropGap u →
      nextToken (Chars.dropGap u ++ Chars.commented t v) =
        (declarationStep (Chars.scanValue none 0 (Chars.dropGap u ++ Chars.commented t v))).map some) :
    (∃ r, TokenEnds v (Chars.dropGap u) r) ∨ ShowsComment v u := by
  cases hrun : Scanner.value.run (.plain false, 0) (Chars.dropGap u) with
  | some place =>
    obtain ⟨p, d⟩ := place
    obtain ⟨t, ht, hcolon, hbreak⟩ := Chars.exists_scanValue_breakout hrun
    obtain ⟨front, back, hscan⟩ := hbreak v
    have hstep := h t ht (.inl hcolon)
    rw [hscan] at hstep
    exact .inr (.of_declarationStep hne ht hstep)
  | none =>
    obtain ⟨front, c, back, htext, hscan⟩ := Chars.scanValue_of_run_eq_none hrun
    cases hread : readDeclaration front with
    | error e =>
      refine .inr (.of_error hne (t := [':']) rfl ⟨e, ?_⟩)
      rw [h [':'] rfl (.inl List.mem_cons_self), hscan, declarationStep, hread]
      rfl
    | ok n =>
      have hcolon : ':' ∈ Chars.dropGap u := by
        rw [htext]
        exact List.mem_append_left _ (colon_mem_of_readDeclaration hread)
      refine .inl ⟨Chars.dropSemicolon (c :: back), Token.leaf n.mute, fun t ht => ⟨.leaf n, rfl, ?_⟩⟩
      rw [h t ht (.inr hcolon), hscan, exists_declarationStep hread]
      rfl

theorem ShowsComment.of_declarations (hne : Chars.dropGap u ≠ []) {text text' : List Char}
    (h : nextToken (Chars.dropGap u ++ Chars.commented ['/', '0'] v) =
      (declarationStep (text, rest)).map some)
    (h' : nextToken (Chars.dropGap u ++ Chars.commented ['/', '1'] v) =
      (declarationStep (text', rest)).map some)
    (hzeros : (Chars.stripComments .plain text).count '0' ≠
      (Chars.stripComments .plain text').count '0') : ShowsComment v u := by
  cases hfirst : readDeclaration text with
  | error e =>
    refine .of_error hne (t := ['/', '0']) rfl ⟨e, ?_⟩
    rw [h, declarationStep, hfirst]
    rfl
  | ok n =>
    cases hsecond : readDeclaration text' with
    | error e =>
      refine .of_error hne (t := ['/', '1']) rfl ⟨e, ?_⟩
      rw [h', declarationStep, hsecond]
      rfl
    | ok n' =>
      rw [declarationStep, hfirst] at h
      rw [declarationStep, hsecond] at h'
      refine .of_digit hne h h' rfl ?_
      change n.zeros ≠ n'.zeros
      rwa [zeros_of_readDeclaration hfirst, zeros_of_readDeclaration hsecond]

/-- The text of a rule or declaration shows a comment where the removal of comments has something
open. -/
theorem ShowsComment.of_strip (h : StartsRule (Chars.dropGap u))
    (hscan : Scanner.prelude.run (.plain false, 0) (Chars.dropGap u) = some (.plain slash, d))
    (hstrip : Scanner.strip.run (.plain false, 0) (Chars.dropGap u) = some (p, e))
    (hp : p.isPlain = false) (hv : Chars.scanPrelude .plain d v = .ok (front, back))
    (hblock : Chars.isCustomProperty (Chars.trimStart (Chars.dropGap u)) → back.head? ≠ some '{') :
    ShowsComment v u := by
  have hcount := count_stripComments_commented hstrip hp front
  have hread {t : List Char} (ht : Chars.IsCommentText t) :
      nextToken (Chars.dropGap u ++ Chars.commented t v) =
        (preludeStep (Chars.dropGap u ++ Chars.commented t v)
          (Chars.dropGap u ++ Chars.commented t front) back).map some := by
    rw [nextToken_of_startsRule h, ruleStep, Chars.scanPrelude_hidden hscan ht, hv]
    rfl
  have hzero := hread (t := ['/', '0']) rfl
  have hone := hread (t := ['/', '1']) rfl
  by_cases hbrace : back.head? = some '{'
  · obtain ⟨back, rfl⟩ := List.head?_eq_some_iff.1 hbrace
    have hcustom : Chars.isCustomProperty (Chars.trimStart (Chars.dropGap u)) = false :=
      Bool.eq_false_iff.2 fun h => hblock h rfl
    have hnone (t : List Char) :
        Chars.startsCustomProperty (Chars.dropGap u ++ Chars.commented t front) = false := by
      rw [Chars.startsCustomProperty_commented, hcustom, Bool.false_and]
    rw [preludeStep_rule (hnone _)] at hzero hone
    refine .of_digit h.1 hzero hone rfl ?_
    simp only [Token.zeros, BlockHead.zeros, zeros_cleanText]
    omega
  · rw [preludeStep_of_head? hbrace] at hzero hone
    exact .of_declarations h.1 hzero hone (by omega)

/-- Where the prelude of a rule or declaration ends in front of the comment, so does the token, unless
it is refused or is a custom property with blocks. -/
theorem tokenEnds_or_shows_of_run_eq_none (h : StartsRule (Chars.dropGap u))
    (hrun : Scanner.prelude.run (.plain false, 0) (Chars.dropGap u) = none) :
    (∃ r, TokenEnds v (Chars.dropGap u) r) ∨ ShowsComment v u := by
  obtain ⟨front, c, back, -, -, hscan⟩ := Chars.scanPrelude_of_run_eq_none hrun
  have hstep (t : List Char) : nextToken (Chars.dropGap u ++ Chars.commented t v) =
      (preludeStep (Chars.dropGap u ++ Chars.commented t v) front
        (c :: (back ++ Chars.commented t v))).map some := by
    rw [nextToken_of_startsRule h, ruleStep, hscan]
    rfl
  by_cases hc : c = '{'
  · subst hc
    cases hcustom : Chars.startsCustomProperty front with
    | false =>
      let token := Token.openBlock (.rule (cleanText front))
      refine .inl ⟨back, token, fun t _ => ⟨token, rfl, ?_⟩⟩
      rw [hstep, preludeStep_rule hcustom]
      rfl
    | true =>
      refine tokenEnds_or_shows_of_value h.1 fun t _ _ => ?_
      rw [hstep, preludeStep_value hcustom]
  · have hstep (t : List Char) : nextToken (Chars.dropGap u ++ Chars.commented t v) =
        (declarationStep (front, c :: (back ++ Chars.commented t v))).map some := by
      rw [hstep, preludeStep_of_head? (by simpa using hc)]
    cases hread : readDeclaration front with
    | error e =>
      refine .inr (.of_error h.1 Chars.isCommentText_nil ⟨e, ?_⟩)
      rw [hstep, declarationStep, hread]
      rfl
    | ok n =>
      refine .inl ⟨Chars.dropSemicolon (c :: back), .leaf n.mute, fun t _ => ⟨.leaf n, rfl, ?_⟩⟩
      rw [hstep, exists_declarationStep hread]
      rfl

theorem ShowsComment.of_not_isPlain (h : StartsRule (Chars.dropGap u))
    (hrun : Scanner.prelude.run (.plain false, 0) (Chars.dropGap u) = some (p, d))
    (hp : p.isPlain = false) : ShowsComment v u := by
  obtain ⟨t, ht, hbreak⟩ := Chars.exists_scanPrelude_breakout hrun hp
  obtain ⟨front, back, hscan⟩ := hbreak v
  have hstep : nextToken (Chars.dropGap u ++ Chars.commented t v) =
      (declarationStep (front, ';' :: 'a' :: ';' :: back)).map some := by
    rw [nextToken_of_startsRule h, ruleStep, hscan]
    rfl
  exact .of_declarationStep h.1 ht hstep

/-- Where a value with blocks is read from the start, the comment stands in the value. -/
theorem tokenEnds_or_shows_of_isCustomProperty (h : StartsRule (Chars.dropGap u))
    (hrun : Scanner.prelude.run (.plain false, 0) (Chars.dropGap u) = some (.plain slash, d))
    (hcustom : Chars.isCustomProperty (Chars.trimStart (Chars.dropGap u)))
    (hv : Chars.scanPrelude .plain d v = .ok (front, '{' :: back)) :
    (∃ r, TokenEnds v (Chars.dropGap u) r) ∨ ShowsComment v u := by
  refine tokenEnds_or_shows_of_value h.1 fun t ht hcolon => ?_
  have hmem : ':' ∈ Chars.dropGap u ++ Chars.commented t front := by
    rw [Chars.commented, List.mem_append, List.mem_cons, List.mem_cons, List.mem_append]
    exact hcolon.elim (fun h => .inr (.inr (.inr (.inl h)))) .inl
  have hstarts : Chars.startsCustomProperty (Chars.dropGap u ++ Chars.commented t front) := by
    rw [Chars.startsCustomProperty_commented, hcustom, Bool.true_and]
    exact List.contains_iff_mem.2 hmem
  rw [nextToken_of_startsRule h, ruleStep, Chars.scanPrelude_hidden hrun ht, hv]
  change (preludeStep _ (Chars.dropGap u ++ Chars.commented t front) ('{' :: back)).map _ = _
  rw [preludeStep_value hstarts]

/-- Where the prelude has no more than brackets open, the comment is hidden or shows, if it does not
stand in a value with blocks. -/
theorem tokenEnds_or_hides_or_shows_of_isPlain (h : StartsRule (Chars.dropGap u))
    (hrun : Scanner.prelude.run (.plain false, 0) (Chars.dropGap u) = some (.plain slash, d)) :
    (∃ r, TokenEnds v (Chars.dropGap u) r) ∨ HidesComment v u ∨ ShowsComment v u := by
  cases hv : Chars.scanPrelude .plain d v with
  | error e =>
    refine .inr (.inr (.of_error h.1 Chars.isCommentText_nil ⟨e, ?_⟩))
    rw [nextToken_of_startsRule h, ruleStep, Chars.scanPrelude_hidden hrun Chars.isCommentText_nil, hv]
    rfl
  | ok q =>
    obtain ⟨front, back⟩ := q
    by_cases hblock : Chars.isCustomProperty (Chars.trimStart (Chars.dropGap u)) →
        back.head? ≠ some '{'
    · obtain ⟨⟨p, e⟩, hstrip⟩ := Chars.exists_run_strip (.plain false, 0) (Chars.dropGap u)
      cases hplain : p.isPlain with
      | false => exact .inr (.inr (.of_strip h hrun hstrip hplain hv hblock))
      | true =>
        obtain ⟨slash', rfl⟩ := p.exists_of_isPlain hplain
        refine .inr (.inl (.inRule h hrun hstrip fun hcustom front' back' heq => ?_))
        rw [hv] at heq
        cases heq
        exact hblock hcustom rfl
    · obtain ⟨hcustom, hbrace⟩ := Classical.not_imp.1 hblock
      obtain ⟨back, rfl⟩ := List.head?_eq_some_iff.1 (Classical.not_not.1 hbrace)
      exact (tokenEnds_or_shows_of_isCustomProperty h hrun hcustom hv).imp_right .inr

/-- A rule or declaration ends in front of the comment, or hides it, or shows it. -/
theorem tokenEnds_or_hides_or_shows_of_rule (h : StartsRule (Chars.dropGap u)) :
    (∃ r, TokenEnds v (Chars.dropGap u) r) ∨ HidesComment v u ∨ ShowsComment v u := by
  cases hrun : Scanner.prelude.run (.plain false, 0) (Chars.dropGap u) with
  | none => exact (tokenEnds_or_shows_of_run_eq_none h hrun).imp_right .inr
  | some place =>
    obtain ⟨p, d⟩ := place
    cases hplain : p.isPlain with
    | false => exact .inr (.inr (.of_not_isPlain h hrun hplain))
    | true =>
      obtain ⟨slash, rfl⟩ := p.exists_of_isPlain hplain
      exact tokenEnds_or_hides_or_shows_of_isPlain h hrun

end Rule

theorem tokenEnds_or_shows_of_comment (h : Chars.dropGap u = '/' :: '*' :: s) :
    (∃ r, TokenEnds v (Chars.dropGap u) r) ∨ ShowsComment v u := by
  have hne : Chars.dropGap u ≠ [] := by
    rw [h]
    exact List.cons_ne_nil _ _
  cases hcut : Chars.cutPhrase "*/".toList s with
  | some p =>
    obtain ⟨text, r⟩ := p
    refine .inl ⟨r, .leaf (.comment ""), fun t _ => ⟨.leaf (.comment (String.ofList text)), rfl, ?_⟩⟩
    rw [h, List.cons_append, List.cons_append, nextToken, Chars.cutPhrase_append hcut]
  | none =>
    obtain ⟨text, back, hback, hcut⟩ := Chars.exists_cutPhrase_breakout hcut v
    refine .inr (.of_refused hne (t := "/;a;".toList) rfl fun token r hnext => ?_)
    rw [h, List.cons_append, List.cons_append, nextToken, hcut] at hnext
    cases hnext
    rcases hback with rfl | rfl
    · exact fun o => outcome_semicolon_letter o _
    · exact fun o => outcome_star_slash o _

/-- What stands in front of a comment ends in front of it, or hides it, or shows it. -/
theorem tokenEnds_or_hides_or_shows (v u : List Char) :
    (∃ r, TokenEnds v (Chars.dropGap u) r) ∨ HidesComment v u ∨ ShowsComment v u := by
  by_cases hne : Chars.dropGap u = []
  · exact .inr (.inl (.between hne))
  · obtain ⟨c, s, h⟩ := List.exists_cons_of_ne_nil hne
    by_cases hat : c = '@'
    · subst hat
      exact tokenEnds_or_hides_or_shows_of_at h
    · by_cases hclose : c = '}'
      · subst hclose
        refine .inl ⟨s, .closeBlock "", fun t _ =>
          ⟨.closeBlock (Text.excerpt ('}' :: (s ++ Chars.commented t v))), rfl, ?_⟩⟩
        rw [h, List.cons_append, nextToken]
      · by_cases hcomment : "/*".toList <+: Chars.dropGap u
        · obtain ⟨s, hs⟩ := hcomment
          exact (tokenEnds_or_shows_of_comment (s := s) hs.symm).imp_right .inr
        · refine tokenEnds_or_hides_or_shows_of_rule ⟨hne, ?_, ?_, hcomment⟩
          · simpa [h] using hat
          · simpa [h] using hclose

/-- Inside of any blocks, a comment's text makes no difference exactly if it is hidden or nothing is
read with any text. -/
theorem outcome_commented_iff (o : Opened) (v u : List Char) :
    (∀ t t', Chars.IsCommentText t → Chars.IsCommentText t' →
        outcome o (u ++ Chars.commented t v) = outcome o (u ++ Chars.commented t' v)) ↔
      HidesComment v u ∨
        ∀ t, Chars.IsCommentText t → outcome o (u ++ Chars.commented t v) = none := by
  constructor
  · -- behind a token in front of the comment there is less in front of it
    generalize hlength : u.length = k
    induction k using Nat.strongRecOn generalizing u o with
    | _ k ih =>
      intro hsame
      obtain ⟨r, hends⟩ | hhides | hshows := tokenEnds_or_hides_or_shows v u
      · obtain hnone | ⟨o', hbehind⟩ := hends.outcome hends.ne_nil o
        · exact .inr hnone
        · have hr : r.length < k := by
            have hgap := Chars.length_dropGap u
            have hshorter := hends.length_lt
            omega
          have hsame' : ∀ t t', Chars.IsCommentText t → Chars.IsCommentText t' →
              outcome o' (r ++ Chars.commented t v) = outcome o' (r ++ Chars.commented t' v) := by
            intro t t' ht ht'
            rw [← hbehind t ht, ← hbehind t' ht', hsame t t' ht ht']
          rcases ih r.length hr o' r rfl hsame' with hhides | hnone
          · exact .inl (.behind hends hhides)
          · exact .inr fun t ht => (hbehind t ht).trans (hnone t ht)
      · exact .inl hhides
      · obtain ⟨t, ht, hnone⟩ := hshows o hsame
        exact .inr fun t' ht' => (hsame t' t ht' ht).trans hnone
  · rintro (hhides | hnone) t t' ht ht'
    · exact hhides.outcome_eq ht ht' o
    · rw [hnone t ht, hnone t' ht']

end Shown

end CommentText

open CommentText

/-- Whether two readings both fail or give trees that differ in the texts of comments only. -/
def SameTree : Except SyntaxError (List Node) → Except SyntaxError (List Node) → Prop
  | .ok ns, .ok ms => muteEach ns = muteEach ms
  | .error _, .error _ => True
  | _, _ => False

private theorem sameTree_iff (r r' : Except SyntaxError (List Node)) :
    SameTree r r' ↔ r.toOption.map muteEach = r'.toOption.map muteEach := by
  cases r <;> cases r' <;> simp [SameTree, Except.toOption]

/-- Whether the scan of a text ends outside of quotes, escapes and comments. -/
def EndsPlain (s : List Char) : Prop :=
  ∃ slash, Scanner.text.run (.plain false, 0) s = some (.plain slash, 0)

instance : DecidablePred EndsPlain :=
  fun _ => inferInstanceAs (Decidable (∃ slash : Bool, _ = some (Cursor.plain slash, 0)))

private theorem toList_commented (u t v : String) : (u ++ "/*" ++ t ++ "*/" ++ v).toList =
    u.toList ++ Chars.commented t.toList v.toList := by
  simp [Chars.commented]

theorem isCommentText_toList_iff (t : String) :
    Chars.IsCommentText t.toList ↔ Text.containsPhrase t "*/" = false := by
  rw [Text.containsPhrase, Chars.IsCommentText, Option.isSome_eq_false_iff,
    Option.isNone_iff_eq_none]

/-- At a place between `u` and `v`, what is written in a comment makes no difference to the tree but
in the comment itself, exactly if the comment is hidden there, or nothing is read with any text. It is
hidden between two tokens. In a prelude it is hidden if neither the scan for its end nor the removal
of comments, for which a quote behind a backslash is a quote, has anything open but brackets, and if
a value with blocks does not begin there. -/
theorem parse_comment_iff (u v : String) :
    (∀ t t' : String, Text.containsPhrase t "*/" = false → Text.containsPhrase t' "*/" = false →
        SameTree (parse (u ++ "/*" ++ t ++ "*/" ++ v)) (parse (u ++ "/*" ++ t' ++ "*/" ++ v))) ↔
      HidesComment v.toList u.toList ∨ ∀ t : String, Text.containsPhrase t "*/" = false →
        ∃ e, parse (u ++ "/*" ++ t ++ "*/" ++ v) = .error e := by
  have houtcome (t : String) : (parse (u ++ "/*" ++ t ++ "*/" ++ v)).toOption.map muteEach =
      outcome {} (u.toList ++ Chars.commented t.toList v.toList) := by
    rw [parse_eq_resume, toList_commented]
    rfl
  have hnone (r : Except SyntaxError (List Node)) :
      (∃ e, r = .error e) ↔ r.toOption.map muteEach = none := by
    cases r <;> simp [Except.toOption]
  have hiff := outcome_commented_iff {} v.toList u.toList
  have htext {t : List Char} (ht : Chars.IsCommentText t) :
      Text.containsPhrase (String.ofList t) "*/" = false := by
    rw [← isCommentText_toList_iff, String.toList_ofList]
    exact ht
  simp only [sameTree_iff, hnone, houtcome]
  constructor
  · intro h
    have hsame : ∀ t t', Chars.IsCommentText t → Chars.IsCommentText t' →
        outcome {} (u.toList ++ Chars.commented t v.toList) =
          outcome {} (u.toList ++ Chars.commented t' v.toList) := by
      intro t t' ht ht'
      have h := h _ _ (htext ht) (htext ht')
      rwa [String.toList_ofList, String.toList_ofList] at h
    exact (hiff.1 hsame).imp_right fun h t ht => h t.toList ((isCommentText_toList_iff t).2 ht)
  · intro h t t' ht ht'
    refine hiff.2 (h.imp_right fun h t ht => ?_) t.toList t'.toList
      ((isCommentText_toList_iff t).2 ht) ((isCommentText_toList_iff t').2 ht')
    have h := h _ (htext ht)
    rwa [String.toList_ofList] at h

/-- Behind a selector a comment is hidden, even if quotes and braces are written in it. -/
theorem parse_comment_iff_selector :
    SameTree (parse (".a" ++ "/*" ++ "it's \x7b" ++ "*/" ++ " \x7b b: c \x7d"))
      (parse (".a" ++ "/*" ++ "" ++ "*/" ++ " \x7b b: c \x7d")) := by
  refine (parse_comment_iff ".a" " \x7b b: c \x7d").2 (.inl ?_) _ _ (by decide) (by decide)
  have hgap : Chars.dropGap ".a".toList = ['.', 'a'] := by decide
  have hstart : StartsRule (Chars.dropGap ".a".toList) := by
    rw [hgap]
    exact ⟨by decide, by decide, by decide, by decide⟩
  have hscan : Scanner.prelude.run (.plain false, 0) (Chars.dropGap ".a".toList) =
      some (.plain false, 0) := by decide
  have hstrip : Scanner.strip.run (.plain false, 0) (Chars.dropGap ".a".toList) =
      some (.plain false, 0) := by decide
  have hcustom : ¬ Chars.isCustomProperty (Chars.trimStart (Chars.dropGap ".a".toList)) := by decide
  exact .inRule hstart hscan hstrip fun h => absurd h hcustom

/-- With a colon in the comment the prelude is that of a custom property, whose value holds a block. -/
theorem parse_comment_ne : ∃ u t t' v : String, EndsPlain u.toList ∧
    Text.containsPhrase t "*/" = false ∧ Text.containsPhrase t' "*/" = false ∧
    ¬ SameTree (parse (u ++ "/*" ++ t ++ "*/" ++ v)) (parse (u ++ "/*" ++ t' ++ "*/" ++ v)) := by
  have hdecl : parse ("--x" ++ "/*" ++ ":" ++ "*/" ++ " \x7b a: b \x7d") =
      .ok [.decl "--x \x7b a" "b \x7d" false] := by
    have hread : nextToken (Chars.dropGap "--x/*:*/ \x7b a: b \x7d".toList) =
        .ok (some (.leaf (.decl "--x \x7b a" "b \x7d" false), [])) := rfl
    rw [parse_eq_resume, show (_ : String).toList = "--x/*:*/ \x7b a: b \x7d".toList by decide,
      resume_leaf hread, resume_end]
    rfl
  have hrule : parse ("--x" ++ "/*" ++ "y" ++ "*/" ++ " \x7b a: b \x7d") =
      .ok [.rule "--x" [.decl "a" "b" false]] := by
    have hhead : nextToken (Chars.dropGap "--x/*y*/ \x7b a: b \x7d".toList) =
        .ok (some (.openBlock (.rule "--x"), " a: b \x7d".toList)) := rfl
    have hread : nextToken (Chars.dropGap " a: b \x7d".toList) =
        .ok (some (.leaf (.decl "a" "b" false), "\x7d".toList)) := rfl
    have hclose : nextToken (Chars.dropGap "\x7d".toList) = .ok (some (.closeBlock "\x7d", [])) := rfl
    rw [parse_eq_resume, show (_ : String).toList = "--x/*y*/ \x7b a: b \x7d".toList by decide,
      resume_openBlock hhead, resume_leaf hread, resume_closeBlock hclose, resume_end]
    rfl
  refine ⟨"--x", ":", "y", " \x7b a: b \x7d", by decide, by decide, by decide, ?_⟩
  rw [hdecl, hrule]
  intro h
  cases h

end UtilityCss
