import UtilityCss.Text.Blank
import UtilityCss.Text.Find
import UtilityCss.Text.Numeric

/-!
# Decoding of arbitrary values

A class name cannot hold spaces, so in an arbitrary value an underscore stands for a space, and an
underscore itself is written behind a backslash. What stands in `url(...)` is kept. If the value
calls a mathematical function, the operators in the function's parentheses get spaces around them,
apart from signs, the dashes of identifiers and the signs of exponents.
-/

namespace UtilityCss

def mathFunctions : List String :=
  ["calc", "min", "max", "clamp", "mod", "rem", "sin", "cos", "tan", "asin", "acos", "atan",
   "atan2", "pow", "sqrt", "hypot", "log", "exp", "round"]

namespace Chars

/-- How many parentheses are open inside a `url(` after one more character, or `none` once it is
closed. -/
def urlDepth (open_ : Nat) (c : Char) : Option Nat :=
  if c == '(' then some (open_ + 1)
  else if c == ')' then if open_ == 0 then none else some (open_ - 1)
  else some open_

/-- Reads underscores. The first argument says how many parentheses are open inside a `url(`. -/
def decodeUnderscores : Option Nat → List Char → List Char
  | _, [] => []
  | some d, c :: s => c :: decodeUnderscores (urlDepth d c) s
  | none, '\\' :: '_' :: s => '_' :: decodeUnderscores none s
  | none, 'u' :: 'r' :: 'l' :: '(' :: s => 'u' :: 'r' :: 'l' :: '(' :: decodeUnderscores (some 0) s
  | none, c :: s => (if c == '_' then ' ' else c) :: decodeUnderscores none s

end Chars

/-- The state of a scan that spaces operators. -/
structure MathScan where
  /-- For each open parenthesis, innermost first, whether operators in it are spaced. -/
  opened : List Bool := []
  /-- The word that is being read, last character first. -/
  word : List Char := []
  /-- What has been written, last character first. -/
  written : List Char := []

namespace MathScan

def inMath (st : MathScan) : Bool := st.opened.headD false

/-- Whether a parenthesis after the word read so far holds a mathematical expression. Parentheses
without a name do where they stand in one. -/
def opensMath (st : MathScan) : Bool :=
  let name := String.ofList (st.word.reverse.dropWhile (! isAlphanumeric ·))
  mathFunctions.contains name || (name.isEmpty && st.inMath)

def write (st : MathScan) (c : Char) : MathScan := { st with written := c :: st.written }

def endWord (st : MathScan) : MathScan := { st with word := [] }

def addToWord (st : MathScan) (c : Char) : MathScan := { st with word := c :: st.word }

/-- Whether a plus or minus here is the sign of what follows. -/
def atSign (st : MathScan) : Bool :=
  match st.written.head? with
  | none => true
  | some c => ['(', ' ', ',', '*', '/', '+'].contains c

/-- Whether a dash in front of `next` is part of an identifier. -/
def inIdentifier (st : MathScan) (next : Option Char) : Bool :=
  (st.word.getLast?.any fun c => isAlphabetic c || c == '-') || next == some '-'

/-- Whether a plus or minus here is the sign of a power of ten. -/
def inExponent (st : MathScan) : Bool :=
  match st.written with
  | e :: d :: _ => (e == 'e' || e == 'E') && d.isDigit
  | _ => false

/-- Writes an operator with a space on either side, where there is none yet. -/
def writeSpaced (st : MathScan) (c : Char) (next : Option Char) : MathScan :=
  let st := if st.written.head? == some ' ' then st else st.write ' '
  if next == some ' ' then st.write c else (st.write c).write ' '

/-- Reads an operator in a mathematical expression. -/
def stepOperator (st : MathScan) (c : Char) (next : Option Char) : MathScan :=
  let isSign := c == '+' || c == '-'
  if (c == '-' && st.inIdentifier next) || (isSign && st.inExponent) then
    (st.write c).addToWord c
  else if isSign && st.atSign then (st.write c).endWord
  else (st.writeSpaced c next).endWord

def isOperator (c : Char) : Bool := c == '+' || c == '-' || c == '*' || c == '/'

/-- Reads a character in front of `next`. -/
def step (st : MathScan) (c : Char) (next : Option Char) : MathScan :=
  if c == '(' then ({ st with opened := st.opensMath :: st.opened }.write c).endWord
  else if c == ')' then ({ st with opened := st.opened.tail }.write c).endWord
  else if isOperator c && st.inMath then st.stepOperator c next
  else if c == ',' || isBlank c then (st.write c).endWord
  else (st.write c).addToWord c

def run : MathScan → List Char → MathScan
  | st, [] => st
  | st, c :: s => run (st.step c s.head?) s

end MathScan

namespace Chars

/-- Puts spaces around the operators in mathematical functions. -/
def spaceOperators (s : List Char) : List Char := (MathScan.run {} s).written.reverse

/-- Whether a mathematical function is called somewhere. -/
def callsMath (s : List Char) : Bool :=
  mathFunctions.any fun f => (cutPhrase (f.toList ++ ['(']) s).isSome

def isUrl (s : List Char) : Bool := "url(".toList.isPrefixOf s && s.getLast? == some ')'

def decodeArbitrary (s : List Char) : List Char :=
  if isUrl s then s
  else
    let decoded := decodeUnderscores none s
    if callsMath decoded then spaceOperators decoded else decoded

end Chars

/-- The value that the text of an arbitrary value in a class name stands for. -/
def decodeArbitrary (s : String) : String := String.ofList (Chars.decodeArbitrary s.toList)

end UtilityCss
