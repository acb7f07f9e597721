import UtilityCss.Number.Numeral

/-!
# Shortest decimals

Among the decimals that read back as a given number of a format, `shortest` takes one with the
fewest digits, and of those the nearest to the number. It tries coarser grids of decimals before
finer ones and looks only at the two points of a grid around the number: a grid has a point that
reads back only if one of these two does.
-/

namespace UtilityCss

/-- Which of two decimals is taken that are equally near to a number. -/
inductive TieBreak where
  | even
  | up
  deriving DecidableEq, Repr

namespace BinaryFormat

/-- Whether a positive rational `y` is rounded to the number `x` of the format. -/
def readsBack (f : BinaryFormat) (x y : Rat) : Bool := f.round y == .finite x

/-- The multiple of `10 ^ k` that is nearest to `x` among those around it that read back as `x`,
divided by `10 ^ k`. -/
def gridPoint? (f : BinaryFormat) (tie : TieBreak) (x : Rat) (k : Int) : Option Nat :=
  let unit : Rat := (10 : Rat) ^ k
  let low : Nat := (x / unit).floor.toNat
  let below := f.readsBack x (low * unit)
  let above := f.readsBack x ((low + 1 : Nat) * unit)
  let gap := 2 * (x - low * unit)
  if below && above then
    if gap < unit then some low
    else if unit < gap then some (low + 1)
    else match tie with
      | .even => some (if low % 2 == 0 then low else low + 1)
      | .up => some (low + 1)
  else if below then some low
  else if above then some (low + 1)
  else none

/-- Tries `n` grids from `10 ^ k` on, each ten times as fine as the one before. -/
def searchGrids (f : BinaryFormat) (tie : TieBreak) (x : Rat) : Nat → Int → Option (Nat × Int)
  | 0, _ => none
  | n + 1, k => match f.gridPoint? tie x k with
    | some c => some (c, k)
    | none => searchGrids f tie x n (k - 1)

/-- A shortest decimal for a positive number of the format: a coefficient and a power of ten. The
search starts above the number's own power of ten and needs at most one grid for each digit. -/
def shortest (f : BinaryFormat) (tie : TieBreak) (x : Rat) : Nat × Int :=
  (f.searchGrids tie x 40 (floorLog2 x * 30103 / 100000 + 2)).getD (0, 0)

end BinaryFormat

namespace Chars

def zeros (n : Nat) : List Char := List.replicate n '0'

def digitsOf (n : Nat) : List Char := Nat.toDigits 10 n

/-- Writes `coefficient * 10 ^ exponent` with a point and at least one digit before it. A whole
number has no point. -/
def positional (coefficient : Nat) (exponent : Int) : List Char :=
  let digits := digitsOf coefficient
  if 0 ≤ exponent then digits ++ zeros exponent.toNat
  else
    let places := (-exponent).toNat
    let padded := zeros (places + 1 - digits.length) ++ digits
    padded.take (padded.length - places) ++ '.' :: padded.drop (padded.length - places)

end Chars

end UtilityCss
