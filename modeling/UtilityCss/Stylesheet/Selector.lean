import UtilityCss.Text.Blank
import UtilityCss.Text.Nesting

/-!
# Nested selectors

In a nested selector `&` stands for the selector of the rule around it; a backslash takes the next
character with it. A selector without `&` is a descendant of the rule around it.
-/

namespace UtilityCss

namespace Chars

/-- Whether `&` stands unescaped in a selector. -/
def hasNesting : List Char → Bool
  | [] => false
  | ['\\'] => false
  | '\\' :: _ :: s => hasNesting s
  | c :: s => c == '&' || hasNesting s

/-- A selector with `parent` in the place of every unescaped `&`. -/
def replaceNesting (parent : List Char) : List Char → List Char
  | [] => []
  | ['\\'] => ['\\']
  | '\\' :: c :: s => '\\' :: c :: replaceNesting parent s
  | c :: s => if c == '&' then parent ++ replaceNesting parent s else c :: replaceNesting parent s

end Chars

def hasNesting (selector : String) : Bool := Chars.hasNesting selector.toList

def replaceNesting (selector parent : String) : String :=
  String.ofList (Chars.replaceNesting parent.toList selector.toList)

/-- One selector inside one parent. -/
def nestSelector (parent child : String) : String :=
  if hasNesting child then replaceNesting child parent else parent ++ " " ++ child

/-- The selectors that a list of alternatives means inside the given parents: every parent with
every alternative. Without parents the alternatives stand for themselves. -/
def combineSelectors (parents : Option (List String)) (child : String) : List String :=
  let alternatives := (segment child ',').map Text.trim
  match parents with
  | none => alternatives
  | some ps => ps.flatMap fun p => alternatives.map (nestSelector p)

end UtilityCss
