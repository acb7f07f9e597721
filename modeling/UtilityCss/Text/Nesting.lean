import UtilityCss.Text.Find

/-!
# Brackets, quotes and splitting at the top level

`segment` splits a text at a separator wherever it stands outside brackets and quotes, and
`isBalanced` says that every bracket and quote is closed. In both a backslash takes the next
character with it.
-/

namespace UtilityCss

/-- The bracket that closes `c`, if `c` opens one. -/
def closer? : Char → Option Char
  | '(' => some ')'
  | '[' => some ']'
  | '{' => some '}'
  | _ => none

def isCloser (c : Char) : Bool := c == ')' || c == ']' || c == '}'

def isQuote (c : Char) : Bool := c == '"' || c == '\''

/-- What is open at a place of a text: a quote, or brackets by the characters that close them,
innermost first. -/
structure Nesting where
  quote : Option Char := none
  closers : List Char := []
  deriving DecidableEq, Repr

namespace Nesting

/-- Nothing is open. -/
def isTop (n : Nesting) : Bool := n.quote.isNone && n.closers.isEmpty

/-- The state after a character that is not escaped. A closing bracket that does not fit the
innermost open one is ignored. -/
def next (n : Nesting) (c : Char) : Nesting :=
  match n.quote with
  | some q => if c == q then { n with quote := none } else n
  | none =>
    if isQuote c then { n with quote := some c }
    else match closer? c with
      | some d => { n with closers := d :: n.closers }
      | none =>
        if isCloser c && n.closers.head? == some c then { n with closers := n.closers.tail } else n

/-- The state after a character, where a closing bracket that does not fit is a failure. -/
def next? (n : Nesting) (c : Char) : Option Nesting :=
  if n.quote.isNone && isCloser c && n.closers.head? != some c then none else some (n.next c)

end Nesting

namespace Chars

/-- The first part of a text that is read from the state `n`, and the parts after it. -/
def segmentFrom (sep : Char) : Nesting → List Char → List Char × List (List Char)
  | _, [] => ([], [])
  | _, ['\\'] => (['\\'], [])
  | n, '\\' :: c :: s =>
    let (part, parts) := segmentFrom sep n s
    ('\\' :: c :: part, parts)
  | n, c :: s =>
    if c == sep && n.isTop && !isQuote c && (closer? c).isNone && !isCloser c then
      let (part, parts) := segmentFrom sep n s
      ([], part :: parts)
    else
      let (part, parts) := segmentFrom sep (n.next c) s
      (c :: part, parts)

def segment (sep : Char) (s : List Char) : List (List Char) :=
  let (part, parts) := segmentFrom sep {} s
  part :: parts

theorem length_segmentFrom (sep : Char) (n : Nesting) (s : List Char) :
    (segmentFrom sep n s).1.length ≤ s.length := by
  fun_induction segmentFrom sep n s <;> simp_all

theorem length_head_segment {sep : Char} {s part : List Char} {parts : List (List Char)}
    (h : segment sep s = part :: parts) : part.length ≤ s.length := by
  obtain ⟨rfl, -⟩ := List.cons.inj h
  exact length_segmentFrom sep {} s

def balancedFrom : Nesting → List Char → Bool
  | n, [] => n.isTop
  | n, ['\\'] => n.isTop
  | n, '\\' :: _ :: s => balancedFrom n s
  | n, c :: s => match n.next? c with
    | some n' => balancedFrom n' s
    | none => false

def isBalanced (s : List Char) : Bool := balancedFrom {} s

end Chars

/-- Splits a text at a separator outside brackets and quotes. -/
def segment (s : String) (sep : Char) : List String :=
  (Chars.segment sep s.toList).map String.ofList

/-- Every bracket is closed by the one that fits it, and no quote is open at the end. -/
def isBalanced (s : String) : Bool := Chars.isBalanced s.toList

end UtilityCss
