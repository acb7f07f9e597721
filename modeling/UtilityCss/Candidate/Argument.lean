import UtilityCss.Text.Nesting
import UtilityCss.Value.Arbitrary

/-!
# Arguments in class names

A utility or variant in a class name may have a value and, behind a slash, a modifier. Either is a
plain name, an arbitrary value in square brackets, or the name of a variable in parentheses.
-/

namespace UtilityCss

inductive Argument where
  | named (text : String)
  | arbitrary (text : String)
  deriving DecidableEq, Repr, Ord

def Argument.text : Argument → String
  | named s => s
  | arbitrary s => s

/-- Whether a text is a plain name: ASCII letters and digits, `-`, `_`, `.` and `%`. -/
def isPlainName (s : String) : Bool :=
  !s.isEmpty && Text.all (fun c => c.isAlphanum || ['-', '_', '.', '%'].contains c) s

/-- Whether a decoded text may stand as a value: it is not blank, its brackets and quotes are
closed, and it is one statement. -/
def isPlainValue (s : String) : Bool :=
  !(Text.trim s).isEmpty && isBalanced s && (segment s ';').length == 1

/-- What stands between two brackets, if the text begins with one and ends with the other. -/
def between? (opening closing s : String) : Option String :=
  (Text.afterLead? opening s).bind (Text.beforeTail? closing)

/-- Whether a text may stand in parentheses: the name of a variable, with balanced brackets. -/
def isVariableName (s : String) : Bool := Text.startsWith s "--" && isBalanced s

def readArgument? (s : String) : Option Argument :=
  match between? "[" "]" s, between? "(" ")" s with
  | some inner, _ =>
    let value := decodeArbitrary inner
    if isPlainValue value then some (.arbitrary value) else none
  | none, some inner =>
    if isVariableName inner then some (.arbitrary ("var(" ++ inner ++ ")")) else none
  | none, none => if isPlainName s then some (.named s) else none

/-- Reads an argument that may be absent; one that is there has to be readable. -/
def readOptional? : Option String → Option (Option Argument)
  | none => some none
  | some s => (readArgument? s).map some

namespace Chars

/-- A name and the modifier behind its slash, if there is one. -/
def splitModifier? (s : List Char) : Option (List Char × Option (List Char)) :=
  match segment '/' s with
  | [name] => some (name, none)
  | [name, modifier] => some (name, some modifier)
  | _ => none

theorem length_of_splitModifier? {s name : List Char} {modifier : Option (List Char)}
    (h : splitModifier? s = some (name, modifier)) : name.length ≤ s.length := by
  unfold splitModifier? at h
  split at h
  · rename_i hs
    obtain ⟨rfl, -⟩ := Prod.mk.inj (Option.some.inj h)
    exact length_head_segment hs
  · rename_i hs
    obtain ⟨rfl, -⟩ := Prod.mk.inj (Option.some.inj h)
    exact length_head_segment hs
  · simp at h

end Chars

end UtilityCss
