import UtilityCss.Json.Number
import UtilityCss.Text.Escape

/-!
# Tokens of JSON texts

Strings are kept as the units that they are written with: characters and the codes of surrogates,
which stand for a character in pairs only. So a text is known to have the form of JSON before its
strings and numbers are interpreted.
-/

namespace UtilityCss

inductive JsonUnit where
  | char (c : Char)
  | surrogate (code : Nat)
  deriving DecidableEq, Repr

namespace JsonUnit

/-- The unit with a code of sixteen bits. -/
def ofCode (n : Nat) : JsonUnit :=
  if n.isValidChar then char (Char.ofNat n) else surrogate n

/-- The character that a leading and a trailing surrogate stand for. -/
def pair? (high low : Nat) : Option Char :=
  if high < 0xDC00 && 0xDC00 ≤ low then
    some (Char.ofNat (0x10000 + (high - 0xD800) * 0x400 + (low - 0xDC00)))
  else none

/-- The characters that units stand for; none if a surrogate is alone. -/
def decode? : List JsonUnit → Option (List Char)
  | [] => some []
  | char c :: us => (decode? us).map (c :: ·)
  | surrogate high :: surrogate low :: us => do
    let c ← pair? high low
    let cs ← decode? us
    return c :: cs
  | surrogate _ :: _ => none

end JsonUnit

/-- The text that units stand for. -/
def unitsText? (us : List JsonUnit) : Option String := (JsonUnit.decode? us).map String.ofList

inductive JsonToken where
  | null
  | bool (b : Bool)
  | number (n : JsonNumeral)
  | string (units : List JsonUnit)
  | openList
  | closeList
  | openObject
  | closeObject
  | comma
  | colon
  deriving DecidableEq, Repr

namespace Chars

def isJsonBlank (c : Char) : Bool := c == ' ' || c == '\n' || c == '\t' || c == '\r'

/-- The character that a letter or mark behind a backslash stands for. -/
def jsonEscape? : Char → Option Char
  | '"' => some '"'
  | '\\' => some '\\'
  | '/' => some '/'
  | 'b' => some '\x08'
  | 'f' => some '\x0c'
  | 'n' => some '\n'
  | 'r' => some '\r'
  | 't' => some '\t'
  | _ => none

/-- The code that four hexadecimal digits write. -/
def jsonCode? (digits : List Char) : Option Nat :=
  if digits.all isHexDigit then some (hexValue digits) else none

/-- The units of a string behind its opening quote, and the text behind its closing quote. -/
def jsonString? : List Char → Option (List JsonUnit × List Char)
  | [] => none
  | '"' :: s => some ([], s)
  | '\\' :: 'u' :: a :: b :: c :: d :: s => do
    let code ← jsonCode? [a, b, c, d]
    let (units, rest) ← jsonString? s
    return (.ofCode code :: units, rest)
  | '\\' :: c :: s => do
    let c ← jsonEscape? c
    let (units, rest) ← jsonString? s
    return (.char c :: units, rest)
  | c :: s => do
    let (units, rest) ← jsonString? s
    if c == '\\' || c.toNat < 0x20 then none else return (.char c :: units, rest)

theorem length_jsonString? {s rest : List Char} {units : List JsonUnit}
    (h : jsonString? s = some (units, rest)) : rest.length < s.length := by
  fun_induction jsonString? s generalizing units with
  | case1 => simp at h
  | case2 s => simp_all
  | case3 a b c d s ih | case4 c s hu ih | case5 c s hq hu hb ih =>
    simp only [bind, Option.bind_eq_some_iff, Prod.exists] at h
    grind

/-- Characters of numerals. -/
def isNumeralChar (c : Char) : Bool := c.isDigit || ['-', '+', '.', 'e', 'E'].contains c

/-- The marks of JSON. -/
def jsonMark? : Char → Option JsonToken
  | '[' => some .openList
  | ']' => some .closeList
  | '{' => some .openObject
  | '}' => some .closeObject
  | ',' => some .comma
  | ':' => some .colon
  | _ => none

/-- The token that a word is. -/
def jsonWord? (word : List Char) : Option JsonToken :=
  if word == "null".toList then some .null
  else if word == "true".toList then some (.bool true)
  else if word == "false".toList then some (.bool false)
  else (readJsonNumeral? word).map .number

/-- The token at the start of a text and the text behind it. -/
def nextJsonToken? (c : Char) (s : List Char) : Option (JsonToken × List Char) :=
  if c == '"' then (jsonString? s).map fun (units, rest) => (.string units, rest)
  else match jsonMark? c with
    | some t => some (t, s)
    | none =>
      let isWordChar (c : Char) : Bool := c.isLower || isNumeralChar c
      (jsonWord? (c :: s.takeWhile isWordChar)).map (·, s.dropWhile isWordChar)

theorem length_nextJsonToken? {c : Char} {s rest : List Char} {t : JsonToken}
    (h : nextJsonToken? c s = some (t, rest)) : rest.length ≤ s.length := by
  unfold nextJsonToken? at h
  split at h
  · simp only [Option.map_eq_some_iff, Prod.exists, Prod.mk.injEq] at h
    obtain ⟨units, r, hr, -, rfl⟩ := h
    exact Nat.le_of_lt (length_jsonString? hr)
  · split at h
    · obtain ⟨-, rfl⟩ := by simpa using h
      exact Nat.le_refl _
    · simp only [Option.map_eq_some_iff, Prod.mk.injEq] at h
      obtain ⟨_, -, -, rfl⟩ := h
      exact (List.dropWhile_sublist _).length_le

/-- The tokens of a text; none if some part of it is no token. -/
def jsonTokens? : List Char → Option (List JsonToken)
  | [] => some []
  | c :: s =>
    if isJsonBlank c then jsonTokens? s
    else match h : nextJsonToken? c s with
      | none => none
      | some (t, rest) =>
        have := length_nextJsonToken? h
        (jsonTokens? rest).map (t :: ·)
termination_by s => s.length

end Chars

end UtilityCss
