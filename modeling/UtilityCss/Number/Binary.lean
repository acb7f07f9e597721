/-!
# Binary floating-point numbers

The finite numbers of a format are kept as the rationals that they are. An exact result is rounded
to the nearest number of the format, of two that are equally near to the one with an even
significand; a result beyond the largest number becomes infinite. The sign of zero is not kept.
-/

namespace UtilityCss

/-- The finite numbers of the format are `m * 2 ^ e` with an integer `m` of at most `digits` binary
digits and `minExp ≤ e ≤ maxExp`. -/
structure BinaryFormat where
  digits : Nat
  minExp : Int
  maxExp : Int
  deriving DecidableEq, Repr

namespace BinaryFormat

def single : BinaryFormat := ⟨24, -149, 104⟩

def double : BinaryFormat := ⟨53, -1074, 971⟩

end BinaryFormat

inductive Binary where
  | nan
  | infinite (negative : Bool)
  | finite (value : Rat)
  deriving DecidableEq, Repr

/-- The integer nearest to `x`; the even one of two that are equally near. -/
def nearestEven (x : Rat) : Int :=
  if x - x.floor < 1 / 2 then x.floor
  else if 1 / 2 < x - x.floor then x.floor + 1
  else if x.floor % 2 == 0 then x.floor else x.floor + 1

/-- The integer nearest to `x`; the one farther from zero of two that are equally near. -/
def nearestAway (x : Rat) : Int :=
  if x < 0 then -((-x + 1 / 2).floor) else (x + 1 / 2).floor

/-- The exponent of the largest power of two that is at most `x`, for a positive `x`. -/
def floorLog2 (x : Rat) : Int :=
  let k : Int := (Nat.log2 x.num.natAbs : Int) - (Nat.log2 x.den : Int)
  if (2 : Rat) ^ k ≤ x then k else k - 1

namespace BinaryFormat

/-- The exponent `e` such that the numbers of the format around a positive `x` are the multiples
of `2 ^ e`. -/
def spacing (f : BinaryFormat) (x : Rat) : Int :=
  max f.minExp (floorLog2 x - (f.digits - 1))

/-- The least power of two that is too large for the format. -/
def limit (f : BinaryFormat) : Rat := (2 : Rat) ^ (f.maxExp + f.digits)

/-- The number of the format nearest to a rational. -/
def round (f : BinaryFormat) (x : Rat) : Binary :=
  if x == 0 then .finite 0
  else
    let unit : Rat := (2 : Rat) ^ f.spacing x.abs
    let y : Rat := nearestEven (x / unit) * unit
    if f.limit ≤ y.abs then .infinite (x < 0) else .finite y

end BinaryFormat

namespace Binary

def isFinite : Binary → Bool
  | finite _ => true
  | _ => false

/-- Whether the number is finite and without fraction. -/
def isWhole : Binary → Bool
  | finite x => x.den == 1
  | _ => false

/-- A finite number as a rational. -/
def toRat? : Binary → Option Rat
  | finite x => some x
  | _ => none

/-- Multiplies by a positive rational, rounding once. A product with a whole number or a quotient
by one is of this kind. -/
def scale (f : BinaryFormat) (factor : Rat) : Binary → Binary
  | finite x => f.round (x * factor)
  | x => x

/-- The product of two numbers, rounded once. -/
def mul (f : BinaryFormat) : Binary → Binary → Binary
  | nan, _ | _, nan => nan
  | infinite a, infinite b => infinite (a != b)
  | infinite a, finite y => if y == 0 then nan else infinite (a != (y < 0))
  | finite x, infinite b => if x == 0 then nan else infinite ((x < 0) != b)
  | finite x, finite y => f.round (x * y)

/-- Rounds a number to a whole one, a half away from zero. -/
def roundAway : Binary → Binary
  | finite x => finite (nearestAway x)
  | x => x

/-- Whether the number is at least zero; infinity is. -/
def isNonnegative : Binary → Bool
  | nan => false
  | infinite negative => !negative
  | finite x => 0 ≤ x

def isAtMost (bound : Rat) : Binary → Bool
  | nan => false
  | infinite negative => negative
  | finite x => x ≤ bound

/-- Whether the number is a multiple of a quarter. -/
def isQuarterStep (f : BinaryFormat) (x : Binary) : Bool := (x.scale f 4).isWhole

/-- The order of two numbers. One that is no number counts as equal to everything. -/
def order : Binary → Binary → Ordering
  | nan, _ | _, nan => .eq
  | infinite a, infinite b => if a == b then .eq else if a then .lt else .gt
  | infinite a, finite _ => if a then .lt else .gt
  | finite _, infinite b => if b then .gt else .lt
  | finite x, finite y => if x < y then .lt else if y < x then .gt else .eq

end Binary

end UtilityCss
