import UtilityCss.Number.Binary
import UtilityCss.Number.Integer

/-!
# Reading of decimal numerals

A numeral has digits before or after a point or both, and may have a sign in front and a power of
ten behind, as in `-.5e3`. The words `inf`, `infinity` and `nan` are read in any case. The number
read is the one of the format nearest to what is written.
-/

namespace UtilityCss

/-- The decimal number `coefficient * 10 ^ exponent`. -/
structure Decimal where
  negative : Bool
  coefficient : Nat
  exponent : Int
  deriving DecidableEq, Repr

namespace Decimal

/-- A positive number is below ten to this power, and not below a tenth of that. -/
def magnitude (d : Decimal) : Int := (Nat.toDigits 10 d.coefficient).length + d.exponent

def toRat (d : Decimal) : Rat :=
  let x : Rat := d.coefficient * (10 : Rat) ^ d.exponent
  if d.negative then -x else x

/-- The number of the format nearest to the decimal. Powers of ten far outside every format are
told by their size. -/
def toBinary (f : BinaryFormat) (d : Decimal) : Binary :=
  if d.coefficient == 0 || d.magnitude < -400 then .finite 0
  else if 400 < d.magnitude then .infinite d.negative
  else f.round d.toRat

end Decimal

namespace Chars

/-- Splits a text behind its leading digits. -/
def spanDigits (s : List Char) : List Char × List Char :=
  (s.takeWhile Char.isDigit, s.dropWhile Char.isDigit)

/-- The exponent at the end of a numeral, which begins with `e` or is absent. -/
def readExponent? : List Char → Option Int
  | [] => some 0
  | c :: s =>
    if c == 'e' || c == 'E' then
      let (negative, digits) := cutSign s
      (readDigits? digits).map fun n => if negative then -(n : Int) else n
    else none

/-- The digits after the point of a numeral, and the rest. -/
def cutFraction : List Char → List Char × List Char
  | '.' :: s => spanDigits s
  | s => ([], s)

def readDecimal? (s : List Char) : Option Decimal :=
  let (negative, s) := cutSign s
  let (whole, s) := spanDigits s
  let (fraction, s) := cutFraction s
  if whole.isEmpty && fraction.isEmpty then none
  else (readExponent? s).map fun e =>
    ⟨negative, decimalValue (whole ++ fraction), e - fraction.length⟩

end Chars

/-- Reads a number of a binary format. -/
def Binary.read? (f : BinaryFormat) (s : String) : Option Binary :=
  let (negative, word) := Chars.cutSign s.toList
  let word := String.ofList (word.map Char.toLower)
  if word == "nan" then some .nan
  else if word == "inf" || word == "infinity" then some (.infinite negative)
  else (Chars.readDecimal? s.toList).map (·.toBinary f)

end UtilityCss
