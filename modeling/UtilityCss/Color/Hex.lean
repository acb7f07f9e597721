import UtilityCss.Text.Blank
import UtilityCss.Text.Escape
import UtilityCss.Text.Lowercase
import UtilityCss.Number.Binary

/-!
# Hexadecimal colours

A colour is written with one or two hexadecimal digits a channel, and the alpha channel may be left
out. It is printed with two lower-case digits a channel, without alpha if the colour is opaque.
-/

namespace UtilityCss

structure HexColor where
  red : UInt8
  green : UInt8
  blue : UInt8
  alpha : UInt8
  deriving DecidableEq, Repr

inductive ColorError where
  /-- The text does not begin with `#`. -/
  | noHash (text : String)
  | badDigit (c : Char)
  | badLength (length : Nat)
  deriving DecidableEq, Repr

def ColorError.message : ColorError → String
  | noHash text => "hex colors start with '#': " ++ text
  | badDigit c => "invalid hex digit: " ++ String.singleton c
  | badLength n => "invalid hex color length: " ++ toString n

namespace HexColor

/-- The channel that one or two digits write. -/
def readChannel (digits : List Char) : Except ColorError UInt8 :=
  match digits.find? (! Chars.isHexDigit ·) with
  | some c => .error (.badDigit c)
  | none => .ok (UInt8.ofNat (Chars.hexValue digits))

/-- Reads the digits of a colour in lower case. -/
def readDigits : List Char → Except ColorError HexColor
  | [r, g, b] => do
    return ⟨← readChannel [r, r], ← readChannel [g, g], ← readChannel [b, b], 255⟩
  | [r, g, b, a] => do
    return ⟨← readChannel [r, r], ← readChannel [g, g], ← readChannel [b, b],
      ← readChannel [a, a]⟩
  | [r, r', g, g', b, b'] => do
    return ⟨← readChannel [r, r'], ← readChannel [g, g'], ← readChannel [b, b'], 255⟩
  | [r, r', g, g', b, b', a, a'] => do
    return ⟨← readChannel [r, r'], ← readChannel [g, g'], ← readChannel [b, b'],
      ← readChannel [a, a']⟩
  | digits => .error (.badLength digits.length)

def read (text : String) : Except ColorError HexColor :=
  match Chars.trim text.toList with
  | '#' :: digits => readDigits (Chars.lower digits)
  | _ => .error (.noHash text)

/-- Two digits for a channel. -/
def channelText (n : UInt8) : List Char :=
  [Nat.digitChar (n.toNat / 16), Nat.digitChar (n.toNat % 16)]

def text (c : HexColor) : String :=
  let alpha := if c.alpha == 255 then [] else channelText c.alpha
  String.ofList
    ('#' :: channelText c.red ++ channelText c.green ++ channelText c.blue ++ alpha)

/-- The colour with its alpha channel multiplied by a number between zero and one. The steps are
rounded to single precision and the result to the nearest whole channel value. -/
def fade (c : HexColor) (factor : Binary) : HexColor :=
  let part := BinaryFormat.single.round ((c.alpha.toNat : Rat) / 255)
  match ((part.mul .single factor).scale .single 255).roundAway with
  | .finite x => { c with alpha := UInt8.ofNat x.floor.toNat }
  | _ => c

end HexColor

end UtilityCss
