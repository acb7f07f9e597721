import UtilityCss.Number.Shortest

/-!
# Numbers in JSON texts

A numeral without fraction and exponent is an integer as long as it fits into 64 bits, and any other
numeral is a number of double precision. Digits that do not fit into 64 bits are dropped, and the
power of ten is applied by multiplication or division with a rounded power, so that the result may
differ from the nearest number in the last place. A number beyond the largest one is refused, and
the sign of zero is kept.
-/

namespace UtilityCss

/-- A numeral as it is written. -/
structure JsonNumeral where
  negative : Bool
  whole : List Char
  fraction : List Char
  exponent : Int
  /-- There is neither a fraction nor an exponent. -/
  isWhole : Bool
  deriving DecidableEq, Repr

inductive JsonNumber where
  | integer (n : Int)
  | double (negative : Bool) (magnitude : Rat)
  deriving DecidableEq, Repr

namespace Chars

/-- The digits behind a point, which have to be there if the point is, and the rest. -/
def cutJsonFraction? : List Char → Option (List Char × List Char)
  | '.' :: s =>
    let (digits, rest) := spanDigits s
    if digits.isEmpty then none else some (digits, rest)
  | s => some ([], s)

/-- Reads a numeral, in which a zero in front of other digits and a plus are not allowed. -/
def readJsonNumeral? (s : List Char) : Option JsonNumeral := do
  let negative := s.head? == some '-'
  let (whole, s) := spanDigits (if negative then s.tail else s)
  if whole.isEmpty || (whole.head? == some '0' && whole.length != 1) then none
  else
    let (fraction, s) ← cutJsonFraction? s
    let exponent ← readExponent? s
    return ⟨negative, whole, fraction, exponent, fraction.isEmpty && s.isEmpty⟩

/-- Appends digits to a number below `2 ^ 64` as long as it stays so, and counts the digits that are
left. -/
def appendDigits (n : Nat) : List Char → Nat × Nat
  | [] => (n, 0)
  | c :: s =>
    let next := 10 * n + digitValue c
    if next < twoPow64 then appendDigits next s else (n, s.length + 1)

end Chars

namespace JsonNumber

/-- The number of double precision nearest to a rational, if there is a finite one. -/
def nearest? (x : Rat) : Option Rat := (BinaryFormat.double.round x).toRat?

/-- The power of ten as a number of double precision. -/
def powerOfTen (k : Nat) : Rat := (nearest? ((10 : Rat) ^ k)).getD 0

/-- Multiplies a number by a power of ten; a division by more than the largest power is done in
steps. -/
def scale? (x : Rat) (e : Int) : Option Rat :=
  if x == 0 then some 0
  else if e.natAbs ≤ 308 then
    nearest? (if 0 ≤ e then x * powerOfTen e.natAbs else x / powerOfTen e.natAbs)
  else if 0 ≤ e then none
  else (nearest? (x / powerOfTen 308)).bind (scale? · (e + 308))
termination_by e.natAbs
decreasing_by omega

end JsonNumber

/-- The number that a numeral writes. -/
def JsonNumeral.value? (s : JsonNumeral) : Option JsonNumber :=
  let (n, dropped) := Chars.appendDigits 0 s.whole
  if s.isWhole && dropped == 0 then
    if !s.negative then some (.integer n)
    else if n == 0 then some (.double true 0)
    else if n ≤ twoPow63 then some (.integer (-n))
    else (JsonNumber.nearest? n).map (.double true)
  else
    let (n, unread) := Chars.appendDigits n s.fraction
    let places : Int := s.fraction.length - unread
    do
      let x ← JsonNumber.nearest? n
      let x ← JsonNumber.scale? x (dropped - places + s.exponent)
      return .double s.negative x

namespace Chars

/-- Writes `coefficient * 10 ^ exponent` with one digit before the point, which is left out if there
is only one digit, and the power of ten behind `e` and its sign. -/
def scientific (coefficient : Nat) (exponent : Int) : List Char :=
  let digits := digitsOf coefficient
  let power := digits.length - 1 + exponent
  let rest := digits.drop 1
  digits.take 1 ++ (if rest.isEmpty then [] else '.' :: rest) ++
    'e' :: (if power < 0 then '-' else '+') :: digitsOf power.natAbs

/-- Writes `coefficient * 10 ^ exponent` with a point and a digit behind it where the point comes at
most sixteen digits behind the first digit and at most four zeros before it, and with a power of
ten otherwise. -/
def pointed (coefficient : Nat) (exponent : Int) : List Char :=
  let point := (digitsOf coefficient).length + exponent
  if -5 < point && point ≤ 16 then
    positional coefficient exponent ++ if 0 ≤ exponent then ['.', '0'] else []
  else scientific coefficient exponent

end Chars

namespace JsonNumber

/-- A number with the fewest digits that read back. One of double precision shows that it is. -/
def text : JsonNumber → String
  | integer n => toString n
  | double negative x =>
    let (coefficient, exponent) := if x == 0 then (0, 0) else BinaryFormat.double.shortest .even x
    (if negative then "-" else "") ++ String.ofList (Chars.pointed coefficient exponent)

end JsonNumber

end UtilityCss
