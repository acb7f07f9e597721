import UtilityCss.Proofs.Stylesheet.Comment

/-!
# Comments that are hidden from the parser

Token by token the parser comes to the place of a comment. Where it stands between two tokens, the
comment is a node of its own, and where it stands inside of one, what it reads is the same with any
text in a comment that all scanners skip.
-/

namespace UtilityCss

namespace CommentText

def StartsRule (s : List Char) : Prop :=
  s ≠ [] ∧ s.head? ≠ some '@' ∧ s.head? ≠ some '}' ∧ ¬ "/*".toList <+: s

/-- Whether a token at the start of a text ends in front of a comment, and is the same up to comments
whatever is written there. Between the token and the comment stands `r`. -/
def TokenEnds (v s r : List Char) : Prop :=
  ∃ token : Token, ∀ t, Chars.IsCommentText t → ∃ token' : Token, token'.mute = token ∧
    nextToken (s ++ Chars.commented t v) = .ok (some (token', r ++ Chars.commented t v))

/-- Whether the parser, having read `u`, stands where a comment in front of `v` hides its text:
between two tokens, or inside of a prelude where neither the scan for its end nor the removal of
comments has a quote, an escape or a comment open. Only the prelude of a custom property may not end
at a brace, since what is read then is a value with blocks. -/
inductive HidesComment (v : List Char) : List Char → Prop
  | between {u : List Char} (h : Chars.dropGap u = []) : HidesComment v u
  | inAtRule {u s : List Char} {slash slash' : Bool} {d e : Nat} (h : Chars.dropGap u = '@' :: s)
      (hscan : Scanner.prelude.run (.plain false, 0) (s.dropWhile isNameChar) =
        some (.plain slash, d))
      (hstrip : Scanner.strip.run (.plain false, 0) (s.dropWhile isNameChar) =
        some (.plain slash', e)) : HidesComment v u
  | inRule {u : List Char} {slash slash' : Bool} {d e : Nat} (h : StartsRule (Chars.dropGap u))
      (hscan : Scanner.prelude.run (.plain false, 0) (Chars.dropGap u) = some (.plain slash, d))
      (hstrip : Scanner.strip.run (.plain false, 0) (Chars.dropGap u) = some (.plain slash', e))
      (hblock : Chars.isCustomProperty (Chars.trimStart (Chars.dropGap u)) →
        ∀ front back, Chars.scanPrelude .plain d v ≠ .ok (front, '{' :: back)) : HidesComment v u
  | behind {u r : List Char} (h : TokenEnds v (Chars.dropGap u) r) (hr : HidesComment v r) :
      HidesComment v u

section Hidden

variable {u v s t t' : List Char} {slash : Bool} {d e : Nat} {o : Opened}

theorem outcome_of_nextToken_eq (h : nextToken (Chars.dropGap s) = nextToken (Chars.dropGap t))
    (o : Opened) : outcome o s = outcome o t := by
  rw [outcome, outcome, resume, resume, tokens_eq s, h, ← tokens_eq t]

private theorem readDeclaration_congr
    (h : Chars.stripComments .plain s = Chars.stripComments .plain t) :
    readDeclaration s = readDeclaration t := by
  rw [readDeclaration, readDeclaration, h]

theorem cleanText_congr (h : Chars.stripComments .plain s = Chars.stripComments .plain t) :
    cleanText s = cleanText t := by
  rw [cleanText, cleanText, Chars.cleanText, Chars.cleanText, h]

theorem preludeStep_of_head? {all text rest : List Char} (h : rest.head? ≠ some '{') :
    preludeStep all text rest = declarationStep (text, rest) := by
  rw [preludeStep]
  rintro r rfl
  exact h rfl

theorem preludeStep_rule {text : List Char} (h : Chars.startsCustomProperty text = false)
    (all back : List Char) :
    preludeStep all text ('{' :: back) = .ok (.openBlock (.rule (cleanText text)), back) := by
  rw [preludeStep, h]
  rfl

theorem preludeStep_value {text : List Char} (h : Chars.startsCustomProperty text)
    (all back : List Char) :
    preludeStep all text ('{' :: back) = declarationStep (Chars.scanValue none 0 all) := by
  rw [preludeStep, if_pos h]

theorem nextToken_of_startsRule (h : StartsRule s) (t v : List Char) :
    nextToken (s ++ Chars.commented t v) = (ruleStep (s ++ Chars.commented t v)).map some := by
  obtain ⟨hne, hat, hclose, hcomment⟩ := h
  cases s with
  | nil => exact absurd rfl hne
  | cons c s =>
    rw [List.cons_append, nextToken]
    · rintro rfl
      exact hclose rfl
    · rintro w rfl hw
      cases s with
      | nil => cases hw
      | cons c s =>
        obtain rfl : c = '*' := (List.cons.inj hw).1
        exact hcomment ⟨s, rfl⟩
    · rintro rfl
      exact hat rfl

/-- The token that begins with an at-sign in front of a comment. -/
theorem nextToken_at (hname : (s.takeWhile isNameChar).isEmpty = false) (t v : List Char) :
    nextToken ('@' :: s ++ Chars.commented t v) =
      ((Chars.scanPrelude .plain 0 (s.dropWhile isNameChar ++ Chars.commented t v)).map
        (atRuleToken (s.takeWhile isNameChar))).map some := by
  rw [List.cons_append, nextToken, atRuleStep, Chars.takeWhile_commented,
    Chars.dropWhile_commented, hname, if_neg Bool.false_ne_true]

theorem nextToken_at_of_isEmpty (hname : (s.takeWhile isNameChar).isEmpty) (t v : List Char) :
    ∃ e, nextToken ('@' :: s ++ Chars.commented t v) = .error e := by
  refine ⟨.badAtRule (Text.excerpt ('@' :: (s ++ Chars.commented t v))), ?_⟩
  rw [List.cons_append, nextToken, atRuleStep, Chars.takeWhile_commented, hname, if_pos rfl]
  rfl

theorem atRuleToken_hidden
    (hstrip : Scanner.strip.run (.plain false, 0) s = some (.plain slash, e))
    (ht : Chars.IsCommentText t) (ht' : Chars.IsCommentText t') (name front back : List Char) :
    atRuleToken name (s ++ Chars.commented t front, back) =
      atRuleToken name (s ++ Chars.commented t' front, back) := by
  obtain ⟨stripped, hstripped⟩ := Chars.stripComments_hidden hstrip
  have hclean : cleanText (s ++ Chars.commented t front) =
      cleanText (s ++ Chars.commented t' front) :=
    cleanText_congr (by rw [hstripped t ht, hstripped t' ht'])
  rw [atRuleToken, atRuleToken, hclean]

private theorem outcome_inAtRule (h : Chars.dropGap u = '@' :: s) {slash' : Bool}
    (hscan : Scanner.prelude.run (.plain false, 0) (s.dropWhile isNameChar) = some (.plain slash, d))
    (hstrip : Scanner.strip.run (.plain false, 0) (s.dropWhile isNameChar) =
      some (.plain slash', e))
    (ht : Chars.IsCommentText t) (ht' : Chars.IsCommentText t') :
    outcome o (u ++ Chars.commented t v) = outcome o (u ++ Chars.commented t' v) := by
  have hne : Chars.dropGap u ≠ [] := by
    rw [h]
    exact List.cons_ne_nil _ _
  cases hname : (s.takeWhile isNameChar).isEmpty with
  | true =>
    have hrefused (t : List Char) : outcome o (u ++ Chars.commented t v) = none := by
      obtain ⟨e, he⟩ := nextToken_at_of_isEmpty hname t v
      apply outcome_of_error (e := e)
      rw [Chars.dropGap_append hne, h, he]
    rw [hrefused t, hrefused t']
  | false =>
    apply outcome_of_nextToken_eq
    rw [Chars.dropGap_append hne, Chars.dropGap_append hne, h, nextToken_at hname,
      nextToken_at hname, Chars.scanPrelude_hidden hscan ht, Chars.scanPrelude_hidden hscan ht']
    cases Chars.scanPrelude .plain d v with
    | error e => rfl
    | ok p => exact congrArg (fun p => Except.ok (some p)) (atRuleToken_hidden hstrip ht ht' _ _ _)

/-- What is read of a prelude is the same with any text in a hidden comment, unless a value with
blocks begins with it. -/
theorem preludeStep_hidden
    (hstrip : Scanner.strip.run (.plain false, 0) s = some (.plain slash, e))
    {front back : List Char}
    (hblock : Chars.isCustomProperty (Chars.trimStart s) → back.head? ≠ some '{')
    (ht : Chars.IsCommentText t) (ht' : Chars.IsCommentText t') (all all' : List Char) :
    preludeStep all (s ++ Chars.commented t front) back =
      preludeStep all' (s ++ Chars.commented t' front) back := by
  obtain ⟨stripped, hstripped⟩ := Chars.stripComments_hidden hstrip
  have hstrips : Chars.stripComments .plain (s ++ Chars.commented t front) =
      Chars.stripComments .plain (s ++ Chars.commented t' front) := by
    rw [hstripped t ht, hstripped t' ht']
  by_cases hbrace : back.head? = some '{'
  · obtain ⟨back, rfl⟩ := List.head?_eq_some_iff.1 hbrace
    have hcustom : Chars.isCustomProperty (Chars.trimStart s) = false :=
      Bool.eq_false_iff.2 fun h => hblock h rfl
    have hnone (t : List Char) : Chars.startsCustomProperty (s ++ Chars.commented t front) = false := by
      rw [Chars.startsCustomProperty_commented, hcustom, Bool.false_and]
    rw [preludeStep_rule (hnone t), preludeStep_rule (hnone t'), cleanText_congr hstrips]
  · rw [preludeStep_of_head? hbrace, preludeStep_of_head? hbrace, declarationStep, declarationStep,
      readDeclaration_congr hstrips]

private theorem outcome_inRule (h : StartsRule (Chars.dropGap u)) {slash' : Bool}
    (hscan : Scanner.prelude.run (.plain false, 0) (Chars.dropGap u) = some (.plain slash, d))
    (hstrip : Scanner.strip.run (.plain false, 0) (Chars.dropGap u) = some (.plain slash', e))
    (hblock : Chars.isCustomProperty (Chars.trimStart (Chars.dropGap u)) →
      ∀ front back, Chars.scanPrelude .plain d v ≠ .ok (front, '{' :: back))
    (ht : Chars.IsCommentText t) (ht' : Chars.IsCommentText t') :
    outcome o (u ++ Chars.commented t v) = outcome o (u ++ Chars.commented t' v) := by
  apply outcome_of_nextToken_eq
  rw [Chars.dropGap_append h.1, Chars.dropGap_append h.1, nextToken_of_startsRule h,
    nextToken_of_startsRule h, ruleStep, ruleStep, Chars.scanPrelude_hidden hscan ht,
    Chars.scanPrelude_hidden hscan ht']
  cases hv : Chars.scanPrelude .plain d v with
  | error e => rfl
  | ok p =>
    have hend : Chars.isCustomProperty (Chars.trimStart (Chars.dropGap u)) →
        p.2.head? ≠ some '{' := by
      intro hcustom hbrace
      obtain ⟨back, hback⟩ := List.head?_eq_some_iff.1 hbrace
      apply hblock hcustom p.1 back
      rw [hv, ← hback]
    exact congrArg (Except.map some) (preludeStep_hidden hstrip hend ht ht' _ _)

theorem outcome_between (h : Chars.dropGap u = []) (ht : Chars.IsCommentText t) (o : Opened) :
    outcome o (u ++ Chars.commented t v) =
      outcome ⟨o.blocks, .comment (String.ofList t) :: o.done⟩ v := by
  have hnext : nextToken (Chars.dropGap (u ++ Chars.commented t v)) =
      .ok (some (.leaf (.comment (String.ofList t)), v)) := by
    rw [Chars.dropGap_append_of_nil h, Chars.dropGap_commented, Chars.commented, nextToken,
      Chars.cutPhrase_comment ht]
  rw [outcome_of_nextToken hnext]
  rfl

/-- Behind a token in front of it, the comment stands in the same text with less in front, unless the
token is refused there. -/
theorem TokenEnds.outcome {r : List Char} (h : TokenEnds v (Chars.dropGap u) r)
    (hne : Chars.dropGap u ≠ []) (o : Opened) :
    (∀ t, Chars.IsCommentText t → UtilityCss.outcome o (u ++ Chars.commented t v) = none) ∨
      ∃ o', ∀ t, Chars.IsCommentText t →
        UtilityCss.outcome o (u ++ Chars.commented t v) =
          UtilityCss.outcome o' (r ++ Chars.commented t v) := by
  obtain ⟨token, h⟩ := h
  have hread (t : List Char) (ht : Chars.IsCommentText t) : ∃ token' : Token, token'.mute = token ∧
      UtilityCss.outcome o (u ++ Chars.commented t v) =
        (o.push token').bind fun o => UtilityCss.outcome o (r ++ Chars.commented t v) := by
    obtain ⟨token', htoken, hnext⟩ := h t ht
    rw [← Chars.dropGap_append hne] at hnext
    exact ⟨token', htoken, outcome_of_nextToken hnext o⟩
  obtain ⟨first, hfirst, -⟩ := hread [] Chars.isCommentText_nil
  have hpush {token' : Token} (htoken : token'.mute = token) :
      (o.push token').map Opened.mute = (o.push first).map Opened.mute :=
    Opened.mute_push rfl (htoken.trans hfirst.symm)
  cases hopen : o.push first with
  | none =>
    refine .inl fun t ht => ?_
    obtain ⟨token', htoken, hread⟩ := hread t ht
    have hnone := hpush htoken
    rw [hopen, Option.map_none, Option.map_eq_none_iff] at hnone
    rw [hread, hnone]
    rfl
  | some o' =>
    refine .inr ⟨o', fun t ht => ?_⟩
    obtain ⟨token', htoken, hread⟩ := hread t ht
    have hsome := hpush htoken
    rw [hopen, Option.map_some, Option.map_eq_some_iff] at hsome
    obtain ⟨p, hp, hmute⟩ := hsome
    rw [hread, hp]
    exact outcome_congr hmute _

theorem TokenEnds.length_lt {r : List Char} (h : TokenEnds v s r) : r.length < s.length := by
  obtain ⟨token, h⟩ := h
  obtain ⟨first, -, hnext⟩ := h [] Chars.isCommentText_nil
  have hlength := length_nextToken hnext
  rw [List.length_append, List.length_append] at hlength
  omega

theorem TokenEnds.ne_nil {r : List Char} (h : TokenEnds v s r) : s ≠ [] :=
  List.ne_nil_of_length_pos (Nat.zero_lt_of_lt h.length_lt)

/-- Where a comment is hidden, its text makes no difference. -/
theorem HidesComment.outcome_eq (h : HidesComment v u) (ht : Chars.IsCommentText t)
    (ht' : Chars.IsCommentText t') (o : Opened) :
    outcome o (u ++ Chars.commented t v) = outcome o (u ++ Chars.commented t' v) := by
  induction h generalizing o with
  | between h =>
    rw [outcome_between h ht, outcome_between h ht']
    apply outcome_congr
    rfl
  | inAtRule h hscan hstrip => exact outcome_inAtRule h hscan hstrip ht ht'
  | inRule h hscan hstrip hblock => exact outcome_inRule h hscan hstrip hblock ht ht'
  | behind h hr ih =>
    obtain hnone | ⟨o', hsame⟩ := h.outcome h.ne_nil o
    · rw [hnone t ht, hnone t' ht']
    · rw [hsame t ht, hsame t' ht', ih]

end Hidden

end CommentText

end UtilityCss
