/-!
# White space and trimming

`isBlank` is the Unicode white-space property, 25 characters in ten ranges. Trimming and splitting
into words use it. The functions of `Chars` work on lists of characters, those of `Text` on
strings.
-/

namespace UtilityCss

/-- White space by the Unicode property. -/
def isBlank (c : Char) : Bool :=
  let n := c.toNat
  (9 ≤ n && n ≤ 13) || n == 0x20 || n == 0x85 || n == 0xA0 || n == 0x1680 ||
    (0x2000 ≤ n && n ≤ 0x200A) || n == 0x2028 || n == 0x2029 || n == 0x202F || n == 0x205F ||
    n == 0x3000

/-- What may stand between two nodes of a stylesheet: space, tab, line feed, carriage return. -/
def isNodeGap (c : Char) : Bool :=
  c == ' ' || c == '\t' || c == '\n' || c == '\r'

namespace Chars

def trimStart (s : List Char) : List Char := s.dropWhile isBlank

def trimEnd (s : List Char) : List Char := (s.reverse.dropWhile isBlank).reverse

def trim (s : List Char) : List Char := trimEnd (trimStart s)

/-- The pieces between characters that satisfy `p`. Empty pieces are kept, so there is one piece
more than there are separators. -/
def splitBy (p : Char → Bool) : List Char → List (List Char)
  | [] => [[]]
  | c :: s =>
    if p c then [] :: splitBy p s
    else match splitBy p s with
      | [] => [[c]]
      | w :: ws => (c :: w) :: ws

/-- The maximal runs of characters that are not blank. -/
def words (s : List Char) : List (List Char) :=
  (splitBy isBlank s).filter (! ·.isEmpty)

end Chars

namespace Text

def trimStart (s : String) : String := String.ofList (Chars.trimStart s.toList)

def trimEnd (s : String) : String := String.ofList (Chars.trimEnd s.toList)

def trim (s : String) : String := String.ofList (Chars.trim s.toList)

def splitBy (p : Char → Bool) (s : String) : List String :=
  (Chars.splitBy p s.toList).map String.ofList

def words (s : String) : List String := (Chars.words s.toList).map String.ofList

end Text

end UtilityCss
