import UtilityCss.Text.Find
import UtilityCss.Number.Numeral
import UtilityCss.Value.Arbitrary

/-!
# Values that are numbers and measures

Numbers, lengths, percentages and angles, calls of mathematical functions, and the bare numbers
that class names may hold: counts, multiples of the spacing unit and fractions.
-/

namespace UtilityCss

def readDouble? (s : String) : Option Binary := Binary.read? .double s

def isNumber (value : String) : Bool := (readDouble? value).any Binary.isFinite

def lengthUnits : List String :=
  ["cm", "mm", "Q", "in", "pc", "pt", "px", "em", "ex", "ch", "rem", "lh", "rlh", "vw", "vh",
   "vmin", "vmax", "vb", "vi", "svw", "svh", "lvw", "lvh", "dvw", "dvh", "cqw", "cqh", "cqi",
   "cqb", "cqmin", "cqmax"]

/-- Splits a measure behind the characters that satisfy `p` into its number and its unit. -/
def splitMeasure (p : Char → Bool) (value : String) : String × String :=
  (String.ofList (value.toList.takeWhile p), String.ofList (value.toList.dropWhile p))

def isLength (value : String) : Bool :=
  let (number, unit) := splitMeasure (fun c => c.isDigit || ['.', '-', '+'].contains c) value
  value == "0" || (isNumber number && lengthUnits.contains unit)

/-- A call of a mathematical function. -/
def isMath (value : String) : Bool :=
  mathFunctions.any fun f => Text.startsWith value (f ++ "(")

def isPercentage (value : String) : Bool := (Text.beforeTail? "%" value).any isNumber

def angleUnits : List String := ["deg", "rad", "grad", "turn"]

def isAngle (value : String) : Bool :=
  angleUnits.any fun unit => (Text.beforeTail? unit value).any isNumber

/-- A number of at most 64 bits, written in digits only. -/
def isPositiveInteger (value : String) : Bool :=
  (readNat? twoPow64 value).isSome && !Text.startsWith value "+"

/-- A count of at most 32 bits. -/
def readCount? (value : String) : Option Nat := readNat? twoPow32 value

/-- A multiple of the spacing unit in steps of a quarter. -/
def isSpacingMultiplier (value : String) : Bool :=
  (readDouble? value).any (fun x => x.isNonnegative && x.isQuarterStep .double) &&
    !Text.startsWith value "+"

/-- Two positive integers around a slash, of which the second is not written `0`. -/
def isFraction (value : String) : Bool :=
  match Text.cutAt (· == '/') value with
  | some (a, b) => isPositiveInteger a && isPositiveInteger b && b != "0"
  | none => false

end UtilityCss
