import UtilityCss.Text.Blank
import UtilityCss.Text.Find
import UtilityCss.Text.Nesting
import UtilityCss.Stylesheet.SyntaxError

/-!
# Scanning the text of a stylesheet

`scanPrelude` finds the first `\x7b`, `;` or `\x7d` outside quotes, comments and round or square brackets.
`scanValue` does so for a custom property, whose value may hold blocks of braces. Both return the
text in front and the text from that character on. `cleanText` removes comments and collapses white
space.
-/

namespace UtilityCss

/-- What the scan of a stylesheet's text is inside of. -/
inductive Scan where
  | plain
  | quoted (quote : Char)
  | comment
  deriving DecidableEq, Repr

namespace Scan

/-- The state after a character in plain text. -/
def enter (c : Char) : Scan := if isQuote c then quoted c else plain

/-- The state after a character inside a quote. -/
def leave (quote c : Char) : Scan := if c == quote then plain else quoted quote

end Scan

namespace Chars

/-- The bracket depth after a character: closing brackets below depth zero are ignored. -/
def bracketDepth (d : Nat) (c : Char) : Nat :=
  if c == '(' || c == '[' then d + 1 else if c == ')' || c == ']' then d - 1 else d

def endsPrelude (c : Char) : Bool := c == '{' || c == ';' || c == '}'

/-- A character in front of a scanned text. -/
def before (c : Char) (p : List Char × List Char) : List Char × List Char := (c :: p.1, p.2)

/-- The text up to the first character outside quotes, comments and brackets that ends a prelude,
and the text from there on. -/
def scanPrelude : Scan → Nat → List Char → Except SyntaxError (List Char × List Char)
  | .plain, _, [] => .ok ([], [])
  | .quoted _, _, [] => .error .unterminatedString
  | .comment, _, [] => .error .unterminatedComment
  | .comment, d, '*' :: '/' :: s => (scanPrelude .plain d s).map (before '*' ∘ before '/')
  | .comment, d, c :: s => (scanPrelude .comment d s).map (before c)
  | .plain, d, '/' :: '*' :: s => (scanPrelude .comment d s).map (before '/' ∘ before '*')
  | st, d, '\\' :: c :: s => (scanPrelude st d s).map (before '\\' ∘ before c)
  | .quoted q, d, c :: s => (scanPrelude (Scan.leave q c) d s).map (before c)
  | .plain, d, c :: s =>
    if d == 0 && endsPrelude c then .ok ([], c :: s)
    else (scanPrelude (Scan.enter c) (bracketDepth d c) s).map (before c)

/-- The bracket depth in the value of a custom property, where braces count as well. -/
def valueDepth (d : Nat) (c : Char) : Nat :=
  if c == '{' then d + 1 else if c == '}' then d - 1 else bracketDepth d c

/-- The text up to the semicolon or closing brace that ends the declaration of a custom property,
and the text from there on. -/
def scanValue : Option Char → Nat → List Char → List Char × List Char
  | _, _, [] => ([], [])
  | q, d, '\\' :: c :: s => before '\\' (before c (scanValue q d s))
  | some q, d, c :: s => before c (scanValue (if c == q then none else some q) d s)
  | none, d, c :: s =>
    if d == 0 && (c == ';' || c == '}') then ([], c :: s)
    else before c (scanValue (if isQuote c then some c else none) (valueDepth d c) s)

/-- Removes comments outside quotes. A quote ends at the next character that opened it; a comment
without an end takes the rest of the text. -/
def stripComments : Scan → List Char → List Char
  | _, [] => []
  | .comment, '*' :: '/' :: s => stripComments .plain s
  | .comment, _ :: s => stripComments .comment s
  | .plain, '/' :: '*' :: s => stripComments .comment s
  | .plain, c :: s => c :: stripComments (Scan.enter c) s
  | .quoted q, c :: s => c :: stripComments (Scan.leave q c) s

/-- Writes every run of white space outside quotes as one space. `spaced` says that the character
in front was white space. -/
def collapseBlanks : Option Char → Bool → List Char → List Char
  | _, _, [] => []
  | some q, _, c :: s => c :: collapseBlanks (if c == q then none else some q) false s
  | none, spaced, c :: s =>
    if isBlank c then
      if spaced then collapseBlanks none true s else ' ' :: collapseBlanks none true s
    else c :: collapseBlanks (if isQuote c then some c else none) false s

/-- A selector or the parameters of an at-rule: without comments, trimmed, and with single
spaces. -/
def cleanText (s : List Char) : List Char :=
  collapseBlanks none false (trim (stripComments .plain s))

theorem append_of_map_before {e : Except SyntaxError (List Char × List Char)} {c : Char}
    {s t r : List Char} (ih : ∀ t r, e = .ok (t, r) → t ++ r = s)
    (h : e.map (before c) = .ok (t, r)) : t ++ r = c :: s := by
  cases e with
  | error _ => simp [Except.map] at h
  | ok p =>
    obtain ⟨t', r'⟩ := p
    simp only [Except.map, before, Except.ok.injEq, Prod.mk.injEq] at h
    obtain ⟨rfl, rfl⟩ := h
    simp [ih t' r' rfl]

theorem append_of_map_before₂ {e : Except SyntaxError (List Char × List Char)} {c d : Char}
    {s t r : List Char} (ih : ∀ t r, e = .ok (t, r) → t ++ r = s)
    (h : e.map (before c ∘ before d) = .ok (t, r)) : t ++ r = c :: d :: s := by
  cases e with
  | error _ => simp [Except.map] at h
  | ok p =>
    obtain ⟨t', r'⟩ := p
    simp only [Except.map, before, Function.comp, Except.ok.injEq, Prod.mk.injEq] at h
    obtain ⟨rfl, rfl⟩ := h
    simp [ih t' r' rfl]

/-- Nothing is lost by the scan. -/
theorem append_of_scanPrelude {st : Scan} {d : Nat} {s t r : List Char}
    (h : scanPrelude st d s = .ok (t, r)) : t ++ r = s := by
  fun_induction scanPrelude st d s generalizing t r with
  | case1 => simp_all
  | case2 => simp at h
  | case3 => simp at h
  | case4 d s ih => exact append_of_map_before₂ (fun _ _ => ih) h
  | case5 d c s _ ih => exact append_of_map_before (fun _ _ => ih) h
  | case6 d s ih => exact append_of_map_before₂ (fun _ _ => ih) h
  | case7 => rename_i ih; exact append_of_map_before₂ (fun _ _ => ih) h
  | case8 => rename_i ih; exact append_of_map_before (fun _ _ => ih) h
  | case9 => simp_all
  | case10 => rename_i ih; exact append_of_map_before (fun _ _ => ih) h

theorem map_before_ne_nil {e : Except SyntaxError (List Char × List Char)} {c : Char}
    {f : List Char × List Char → List Char × List Char} {r : List Char} :
    e.map (before c ∘ f) ≠ .ok ([], r) := by
  cases e <;> simp [Except.map, before]

/-- The scan stops at once only at a character that ends a prelude. -/
theorem endsPrelude_of_scanPrelude_nil {c : Char} {s r : List Char}
    (h : scanPrelude .plain 0 (c :: s) = .ok ([], r)) : endsPrelude c = true := by
  have one {e : Except SyntaxError (List Char × List Char)} {c : Char} :
      e.map (before c) ≠ .ok ([], r) := map_before_ne_nil (f := id)
  unfold scanPrelude at h
  split at h
  · simp_all
  · simp_all
  · simp_all
  · simp_all
  · simp_all
  · exact absurd h map_before_ne_nil
  · exact absurd h map_before_ne_nil
  · simp_all
  · rename_i heq
    obtain ⟨rfl, rfl⟩ := List.cons.inj heq
    split at h
    · simp_all
    · exact absurd h one

theorem append_scanValue (q : Option Char) (d : Nat) (s : List Char) :
    (scanValue q d s).1 ++ (scanValue q d s).2 = s := by
  fun_induction scanValue q d s <;> simp_all [before]

end Chars

def stripComments (s : String) : String := String.ofList (Chars.stripComments .plain s.toList)

def cleanText (s : List Char) : String := String.ofList (Chars.cleanText s)

end UtilityCss
