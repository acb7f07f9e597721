/-!
# Escaping of identifiers

`escape` writes a text so that it can stand as an identifier in a selector, and `unescape` reads
an identifier back. A control character or a leading digit is written by its code in hexadecimal
and a space, any other ASCII character that may not stand in an identifier behind a backslash.
-/

namespace UtilityCss

namespace Chars

/-- The digits of `n` in base 16, lower case, without leading zeros. -/
def hexDigits (n : Nat) : List Char := Nat.toDigits 16 n

/-- A character that stands for itself in an identifier, apart from a leading digit. -/
def isIdentifierChar (c : Char) : Bool :=
  0x80 ≤ c.toNat || c == '-' || c == '_' || c.isAlphanum

def isControl (c : Char) : Bool := c.toNat < 0x20 || c.toNat == 0x7F

/-- One character of an identifier; `leading` says that a digit may not stand here. -/
def escapeChar (leading : Bool) (c : Char) : List Char :=
  if c.toNat == 0 then ['\uFFFD']
  else if isControl c || (leading && c.isDigit) then '\\' :: hexDigits c.toNat ++ [' ']
  else if isIdentifierChar c then [c]
  else ['\\', c]

def escape : List Char → List Char
  | [] => []
  | ['-'] => ['\\', '-']
  | '-' :: c :: s => '-' :: escapeChar true c ++ s.flatMap (escapeChar false)
  | c :: s => escapeChar true c ++ s.flatMap (escapeChar false)

def isHexDigit (c : Char) : Bool :=
  c.isDigit || ('a' ≤ c && c ≤ 'f') || ('A' ≤ c && c ≤ 'F')

def hexDigitValue (c : Char) : Nat :=
  if c.isDigit then c.toNat - 48
  else if 'a' ≤ c then c.toNat - 87
  else c.toNat - 55

def hexValue (digits : List Char) : Nat :=
  digits.foldl (fun n c => 16 * n + hexDigitValue c) 0

/-- The character with the given code, or the replacement character if there is none. -/
def charOfCode (n : Nat) : Char :=
  if n.isValidChar then Char.ofNat n else '\uFFFD'

/-- Up to `n` hexadecimal digits at the start of a text, and the rest. -/
def takeHex : Nat → List Char → List Char × List Char
  | n + 1, c :: s =>
    if isHexDigit c then let (a, b) := takeHex n s; (c :: a, b) else ([], c :: s)
  | _, s => ([], s)

theorem length_takeHex (n : Nat) (s : List Char) : (takeHex n s).2.length ≤ s.length := by
  induction n generalizing s with
  | zero => simp [takeHex]
  | succ n ih =>
    cases s with
    | nil => simp [takeHex]
    | cons c s =>
      simp only [takeHex]
      split
      · have := ih s; simp only [List.length_cons]; omega
      · simp

/-- One space at the start of a text ends a code and is dropped. -/
def dropSpace : List Char → List Char
  | ' ' :: s => s
  | s => s

theorem length_dropSpace (s : List Char) : (dropSpace s).length ≤ s.length := by
  unfold dropSpace; split <;> simp

/-- Reads an identifier. A backslash takes up to six hexadecimal digits as a code, or else the
next character as it is; a backslash at the end is dropped. -/
def unescape : List Char → List Char
  | [] => []
  | '\\' :: s =>
    if (takeHex 6 s).1.isEmpty then
      match s with
      | [] => []
      | c :: r => c :: unescape r
    else
      charOfCode (hexValue (takeHex 6 s).1) :: unescape (dropSpace (takeHex 6 s).2)
  | c :: s => c :: unescape s
termination_by s => s.length
decreasing_by
  · simp only [List.length_cons]; omega
  · have := length_takeHex 6 s
    have := length_dropSpace (takeHex 6 s).2
    simp only [List.length_cons]; omega
  · simp

end Chars

def escape (s : String) : String := String.ofList (Chars.escape s.toList)

def unescape (s : String) : String := String.ofList (Chars.unescape s.toList)

end UtilityCss
