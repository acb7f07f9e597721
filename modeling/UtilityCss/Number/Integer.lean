/-!
# Reading of integers

A numeral is a non-empty run of decimal digits, for most readers behind an optional sign. Leading
zeros are allowed. A numeral outside the range of its reader is refused.
-/

namespace UtilityCss

/-! The bounds of integers of 32, 63 and 64 bits. -/

abbrev twoPow32 : Nat := 0x100000000

abbrev twoPow63 : Nat := 0x8000000000000000

abbrev twoPow64 : Nat := 0x10000000000000000

namespace Chars

def digitValue (c : Char) : Nat := c.toNat - '0'.toNat

/-- The number that a run of digits writes. -/
def decimalValue (digits : List Char) : Nat :=
  digits.foldl (fun n c => 10 * n + digitValue c) 0

/-- The number that the text writes, if it consists of digits. -/
def readDigits? (s : List Char) : Option Nat :=
  if s.isEmpty || !s.all Char.isDigit then none else some (decimalValue s)

/-- A text without its sign, and whether the sign is a minus. -/
def cutSign : List Char → Bool × List Char
  | '-' :: s => (true, s)
  | '+' :: s => (false, s)
  | s => (false, s)

/-- A text without a plus in front. -/
def dropPlus : List Char → List Char
  | '+' :: s => s
  | s => s

end Chars

/-- Reads a number below `bound`; a plus may stand in front. -/
def readNat? (bound : Nat) (s : String) : Option Nat :=
  (Chars.readDigits? (Chars.dropPlus s.toList)).filter (· < bound)

/-- Reads an integer from `-bound` to `bound - 1`; a sign may stand in front. -/
def readInt? (bound : Nat) (s : String) : Option Int :=
  let (negative, digits) := Chars.cutSign s.toList
  (Chars.readDigits? digits).bind fun n =>
    if negative then if n ≤ bound then some (-n) else none
    else if n < bound then some n else none

end UtilityCss
