import UtilityCss.Text.Numeric
import UtilityCss.Stylesheet.Declaration

/-!
# Tokens of a stylesheet

A stylesheet is a sequence of tokens: heads of blocks, closing braces, and the nodes that have no
block. `nextToken` takes one token off a text, and `tokens` repeats that up to the end of the text
or the first fault. The custom property `--x: \x7b a: b \x7d` is one token, braces and all.
-/

namespace UtilityCss

/-- What stands in front of a block. -/
inductive BlockHead where
  | rule (selector : String)
  | atRule (name params : String)
  deriving DecidableEq, Repr

namespace BlockHead

/-- The block with the given nodes inside. -/
def node : BlockHead → List Node → Node
  | rule sel, ns => .rule sel ns
  | atRule name params, ns => .atRule name params ns

/-- What a message calls the block. -/
def context : BlockHead → String
  | rule sel => sel
  | atRule name _ => name

end BlockHead

inductive Token where
  | leaf (node : Node)
  | openBlock (head : BlockHead)
  /-- A closing brace; `near` is the text from there on, for a message. -/
  | closeBlock (near : String)
  deriving Repr

namespace Chars

/-- Between two tokens stand blanks and empty statements. -/
def dropGap (s : List Char) : List Char := s.dropWhile fun c => isNodeGap c || c == ';'

theorem length_dropGap (s : List Char) : (dropGap s).length ≤ s.length :=
  (List.dropWhile_sublist _).length_le

/-- A semicolon ends a statement and is dropped; a closing brace ends one and is kept. -/
def dropSemicolon : List Char → List Char
  | ';' :: s => s
  | s => s

theorem length_dropSemicolon (s : List Char) : (dropSemicolon s).length ≤ s.length := by
  unfold dropSemicolon; split <;> simp

/-- Whether a prelude in front of a brace is the start of a custom property. -/
def startsCustomProperty (text : List Char) : Bool :=
  isCustomProperty (trimStart text) && text.contains ':'

end Chars

/-- A token with the text after it. -/
abbrev Step := Except SyntaxError (Token × List Char)

/-- The declaration `p.1` with what follows the text `p.2` after it. -/
def declarationStep (p : List Char × List Char) : Step :=
  (readDeclaration p.1).map fun n => (.leaf n, Chars.dropSemicolon p.2)

/-- The at-rule of a given name whose parameters are `p.1`, in front of `p.2`. -/
def atRuleToken (name : List Char) (p : List Char × List Char) : Token × List Char :=
  match p.2 with
  | '{' :: r => (.openBlock (.atRule (String.ofList name) (cleanText p.1)), r)
  | _ => (.leaf (.statement (String.ofList name) (cleanText p.1)), Chars.dropSemicolon p.2)

/-- The at-rule whose text after the at-sign is `s`; `all` includes the sign. -/
def atRuleStep (all s : List Char) : Step :=
  if (s.takeWhile isNameChar).isEmpty then .error (.badAtRule (Text.excerpt all))
  else (Chars.scanPrelude .plain 0 (s.dropWhile isNameChar)).map
    (atRuleToken (s.takeWhile isNameChar))

/-- The style rule or declaration at the start of `s`, whose prelude is `text`, in front of
`rest`. -/
def preludeStep (s text rest : List Char) : Step :=
  match rest with
  | '{' :: r =>
    if Chars.startsCustomProperty text then declarationStep (Chars.scanValue none 0 s)
    else .ok (.openBlock (.rule (cleanText text)), r)
  | _ => declarationStep (text, rest)

/-- The style rule or declaration at the start of `s`. -/
def ruleStep (s : List Char) : Step := (Chars.scanPrelude .plain 0 s).bind fun p => preludeStep s p.1 p.2

/-- The token at the start of a text that does not begin with a gap; none at the end. -/
def nextToken : List Char → Except SyntaxError (Option (Token × List Char))
  | [] => .ok none
  | '}' :: s => .ok (some (.closeBlock (Text.excerpt ('}' :: s)), s))
  | '/' :: '*' :: s => match Chars.cutPhrase "*/".toList s with
    | some (text, rest) => .ok (some (.leaf (.comment (String.ofList text)), rest))
    | none => .error .unterminatedComment
  | '@' :: s => (atRuleStep ('@' :: s) s).map some
  | c :: s => (ruleStep (c :: s)).map some

theorem rest_of_declarationStep {p : List Char × List Char} {r : List Char} {t : Token}
    (h : declarationStep p = .ok (t, r)) : r = Chars.dropSemicolon p.2 := by
  unfold declarationStep at h
  cases hd : readDeclaration p.1 <;> simp_all [Except.map]

theorem length_atRuleToken (name : List Char) (p : List Char × List Char) :
    (atRuleToken name p).2.length ≤ p.2.length := by
  unfold atRuleToken
  split
  · rename_i r hr; simp [hr]
  · exact Chars.length_dropSemicolon p.2

theorem length_atRuleStep {all s r : List Char} {t : Token} (h : atRuleStep all s = .ok (t, r)) :
    r.length ≤ s.length := by
  unfold atRuleStep at h
  split at h
  · cases h
  · cases hp : Chars.scanPrelude .plain 0 (s.dropWhile isNameChar) with
    | error e => simp [hp, Except.map] at h
    | ok p =>
      simp only [hp, Except.map, Except.ok.injEq] at h
      have hlen := congrArg List.length (Chars.append_of_scanPrelude hp)
      have htok := length_atRuleToken (s.takeWhile isNameChar) p
      have hdrop := (List.dropWhile_sublist (l := s) isNameChar).length_le
      simp only [List.length_append] at hlen
      simp only [h] at htok
      omega

theorem length_ruleStep {c : Char} {s r : List Char} {t : Token} (hc : c ≠ '}')
    (h : ruleStep (c :: s) = .ok (t, r)) : r.length ≤ s.length := by
  unfold ruleStep at h
  cases hp : Chars.scanPrelude .plain 0 (c :: s) with
  | error e => simp [hp, Except.bind] at h
  | ok p =>
  obtain ⟨text, rest⟩ := p
  simp only [hp, Except.bind, preludeStep] at h
  have happ := Chars.append_of_scanPrelude hp
  have hlen := congrArg List.length happ
  simp only [List.length_append, List.length_cons] at hlen
  have hdrop := Chars.length_dropSemicolon rest
  split at h
  · rename_i r'
    split at h
    · rename_i hcustom
      -- The prelude begins with dashes, so the declaration does not end at once.
      have htext : text ≠ [] := by rintro rfl; simp [Chars.startsCustomProperty] at hcustom
      have hsemi : c ≠ ';' := by
        rintro rfl
        rw [Chars.scanPrelude.eq_9 _ _ _ (by simp) (by simp)] at hp
        simp [Chars.endsPrelude] at hp
      have hne : (Chars.scanValue none 0 (c :: s)).1 ≠ [] := by
        intro hnil
        unfold Chars.scanValue at hnil
        split at hnil <;> simp_all [Chars.before]
      have hpos : (Chars.scanValue none 0 (c :: s)).1.length ≠ 0 := by simpa using hne
      have hval := congrArg List.length (Chars.append_scanValue none 0 (c :: s))
      have hdrop' := Chars.length_dropSemicolon (Chars.scanValue none 0 (c :: s)).2
      simp only [List.length_append, List.length_cons] at hval
      rw [rest_of_declarationStep h]
      omega
    · simp only [Except.ok.injEq, Prod.mk.injEq] at h
      obtain ⟨-, rfl⟩ := h
      simp only [List.length_cons] at hlen
      omega
  · rename_i hnb
    rw [rest_of_declarationStep h]
    by_cases hnil : text = []
    · subst hnil
      have hstop := Chars.endsPrelude_of_scanPrelude_nil hp
      simp only [List.nil_append] at happ
      simp only [Chars.endsPrelude, Bool.or_eq_true, beq_iff_eq] at hstop
      rcases hstop with (rfl | rfl) | rfl
      · exact absurd happ (hnb s)
      · rw [happ]; simp [Chars.dropSemicolon]
      · exact absurd rfl hc
    · have : text.length ≠ 0 := by simpa using hnil
      change (Chars.dropSemicolon rest).length ≤ s.length
      omega

/-- A token takes at least one character. -/
theorem length_nextToken {s r : List Char} {t : Token} (h : nextToken s = .ok (some (t, r))) :
    r.length < s.length := by
  unfold nextToken at h
  split at h
  · simp at h
  · simp at h; simp [← h.2]
  · rename_i s
    split at h
    · rename_i hcut
      simp at h
      have := Chars.length_cutPhrase hcut
      simp only [← h.2, List.length_cons]
      omega
    · simp at h
  · rename_i s
    cases hs : atRuleStep ('@' :: s) s with
    | error e => simp [hs, Except.map] at h
    | ok p =>
      simp [hs, Except.map] at h
      subst h
      have := length_atRuleStep hs
      simp only [List.length_cons]
      omega
  · rename_i c s hclose _ _
    cases hs : ruleStep (c :: s) with
    | error e => simp [hs, Except.map] at h
    | ok p =>
      simp [hs, Except.map] at h
      subst h
      have := length_ruleStep (by rintro rfl; exact hclose rfl) hs
      simp only [List.length_cons]
      omega

/-- The tokens of a text up to its end or its first fault, and that fault. -/
def tokens (s : List Char) : List Token × Option SyntaxError :=
  match h : nextToken (Chars.dropGap s) with
  | .error e => ([], some e)
  | .ok none => ([], none)
  | .ok (some (t, r)) =>
    have : r.length < s.length :=
      Nat.lt_of_lt_of_le (length_nextToken h) (Chars.length_dropGap s)
    let (ts, fault) := tokens r
    (t :: ts, fault)
termination_by s.length

end UtilityCss
