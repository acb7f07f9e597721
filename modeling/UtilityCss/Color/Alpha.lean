import UtilityCss.Text.Find
import UtilityCss.Number.Shortest
import UtilityCss.Color.Hex

/-!
# Transparency

The modifier behind the slash of a class name gives a colour transparency. `normalizeAlpha` reads
the modifier and `withAlpha` applies it: to a hexadecimal colour at once, to any other colour
through `color-mix()`. Numbers are of single precision.
-/

namespace UtilityCss

def readSingle? (s : String) : Option Binary := Binary.read? .single s

/-- The largest and the least integer that a number is written as without fraction. -/
def clampWhole (n : Int) : Int := max (-twoPow63) (min n (twoPow63 - 1))

/-- A number with the fewest digits that read back. -/
def Binary.text : Binary → String
  | nan => "NaN"
  | infinite negative => if negative then "-inf" else "inf"
  | finite x =>
    let (coefficient, exponent) := BinaryFormat.single.shortest .up x.abs
    (if x < 0 then "-" else "") ++ String.ofList (Chars.positional coefficient exponent)

/-- Writes a number with at most three decimals. -/
def formatNumber (x : Binary) : String :=
  let rounded := (x.scale .single 1000).roundAway.scale .single (1 / 1000)
  match rounded with
  | .finite y => if y.den == 1 then toString (clampWhole y.num) else rounded.text
  | _ => rounded.text

/-- Whether a bare number is a percentage: from zero to a hundred in steps of a quarter. -/
def isPercentStep (x : Binary) : Bool :=
  x.isNonnegative && x.isAtMost 100 && x.isQuarterStep .single

/-- The alpha value of a modifier that is a number. An arbitrary one up to 1 is a fraction; a bare
one has to be a percentage in steps of a quarter. -/
def numberAlpha? (modifier : String) (arbitrary : Bool) (x : Binary) : Option String :=
  if arbitrary then
    some (if x.isAtMost 1 then formatNumber (x.scale .single 100) ++ "%" else modifier ++ "%")
  else if isPercentStep x then some (modifier ++ "%") else none

/-- The alpha value of a modifier. A percentage stands for itself, and so does an arbitrary
modifier that is no number. -/
def normalizeAlpha (modifier : String) (arbitrary : Bool) : Option String :=
  let modifier := Text.trim modifier
  if modifier.isEmpty then none
  else match Text.beforeTail? "%" modifier with
    | some number => (readSingle? number).map fun _ => modifier
    | none => match readSingle? modifier with
      | some x => numberAlpha? modifier arbitrary x
      | none => if arbitrary then some modifier else none

/-- The fraction that a percentage between 0% and 100% stands for. -/
def percentageFraction? (alpha : String) : Option Binary := do
  let x ← readSingle? (← Text.beforeTail? "%" alpha)
  if x.isNonnegative && x.isAtMost 100 then some (x.scale .single (1 / 100)) else none

/-- A colour with an alpha value applied. -/
def withAlpha (color alpha : String) : String :=
  if alpha == "100%" then color
  else match HexColor.read color, percentageFraction? alpha with
    | .ok hex, some factor => (hex.fade factor).text
    | _, _ => "color-mix(in srgb, " ++ color ++ " " ++ alpha ++ ", transparent)"

end UtilityCss
