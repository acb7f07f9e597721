import UtilityCss.Utility.Registry
import UtilityCss.Variant.Parser

/-!
# Reading of class names

A class name may be read in several ways, since it does not say where the name of the utility ends.
`readCandidates` lists all of them: a utility without a value first, then the longest name first.
A class name that cannot be read has none.
-/

namespace UtilityCss

/-- The type named in front of an arbitrary value, as in `length:var(--x)`, and the value. -/
def splitTypeHint (s : String) : Option String × String :=
  let hint := s.toList.takeWhile fun c => c.isLower || c == '-'
  match s.toList.drop hint.length with
  | ':' :: rest =>
    if hint.isEmpty then (none, s) else (some (String.ofList hint), String.ofList rest)
  | _ => (none, s)

/-- The name of a variable alone stands for the variable. -/
def expandVariable (value : String) : String :=
  if Text.startsWith value "--" && Text.all (fun c => c != ' ' && c != '(' && c != ',') value then
    "var(" ++ value ++ ")"
  else value

/-- Reads a value in square brackets, or the name of a variable in parentheses. -/
def readArbitrary? (s : String) : Option CandidateValue :=
  match between? "[" "]" s, between? "(" ")" s with
  | some inner, _ =>
    let (hint, text) := splitTypeHint inner
    let value := decodeArbitrary text
    if isPlainValue value then some (.arbitrary (expandVariable value) hint) else none
  | none, some inner =>
    let (hint, text) := splitTypeHint inner
    if isVariableName text then
      some (.arbitrary ("var(" ++ decodeArbitrary text ++ ")") hint)
    else none
  | none, none => none

/-- A text without the one mark behind or in front of it that makes a class name important. -/
def cutImportant (s : String) : String × Bool :=
  match Text.beforeTail? "!" s, Text.afterLead? "!" s with
  | some rest, _ => (rest, true)
  | none, some rest => (rest, true)
  | none, none => (s, false)

/-- A text without the dash that negates it. A lone dash and the first of two are no signs. -/
def cutNegative (s : String) : String × Bool :=
  match s.toList with
  | '-' :: c :: rest => if c == '-' then (s, false) else (String.ofList (c :: rest), true)
  | _ => (s, false)

/-- A name and its modifier; none if there are several modifiers or the modifier is not readable. -/
def splitArgument? (s : String) : Option (String × Option Argument) := do
  let (name, modifier) ← Chars.splitModifier? s.toList
  return (String.ofList name, ← readOptional? (modifier.map String.ofList))

/-- Whether a text is the name of a property. -/
def isPropertyName (s : String) : Bool :=
  match s.toList with
  | [] => false
  | c :: _ => (c == '-' || c.isLower) &&
    Text.all (fun c => c.isAlphanum || c == '-' || c == '_') s

/-- Reads an arbitrary property such as `[color:red]/50`. -/
def readProperty? (s : String) : Option CandidateForm := do
  let (text, modifier) ← splitArgument? s
  let (name, value) ← Text.cutAt (· == ':') (← between? "[" "]" text)
  let decoded := decodeArbitrary value
  if isPropertyName name && !value.isEmpty && isPlainValue decoded then
    return .property name decoded modifier
  else none

namespace Utilities

/-- Reads a utility with an arbitrary value such as `p-[3px]` or `bg-(--brand)`. The name ends at
the first bracket of the kind that the text ends in. -/
def readWithArbitrary? (us : Utilities) (opening name : String) (modifier : Option Argument)
    (negative : Bool) : Option CandidateForm := do
  let (root, rest) ← Text.cutPhrase ("-" ++ opening) name
  if us.has root .functional then
    return .functional root (some (← readArbitrary? (opening ++ rest))) modifier negative
  else none

/-- The value that a plain name is, with the fraction that it makes with a plain modifier. -/
def plainValue (value : String) (modifier : Option Argument) : CandidateValue :=
  .named value <| match modifier with
    | some (.named m) => some (value ++ "/" ++ m)
    | _ => none

/-- Reads a utility with a plain value or none in all ways in which its name may end. -/
def readWithName (us : Utilities) (name : String) (modifier : Option Argument)
    (negative : Bool) : List CandidateForm :=
  (findRoots (us.has · .functional) name).filterMap fun (root, value) => match value with
    | none => some (.functional root none modifier negative)
    | some value =>
      if isPlainName value then
        some (.functional root (some (plainValue value modifier)) modifier negative)
      else none

/-- Reads a functional utility. -/
def readFunctional (us : Utilities) (s : String) (negative : Bool) : List CandidateForm :=
  match splitArgument? s with
  | none => []
  | some (name, modifier) =>
    if Text.endsWith name "]" then (us.readWithArbitrary? "[" name modifier negative).toList
    else if Text.endsWith name ")" then
      (us.readWithArbitrary? "(" name modifier negative).toList
    else us.readWithName name modifier negative

/-- Reads a class name without its variants and its important mark. -/
def readForms (us : Utilities) (s : String) : List CandidateForm :=
  if s.isEmpty then []
  else if Text.startsWith s "[" then (readProperty? s).toList
  else
    let (name, negative) := cutNegative s
    let plain := us.has name .static && !Text.containsChar name '['
    (if plain then [.static name negative] else []) ++ us.readFunctional name negative

end Utilities

/-- The variants in front of a class name, as they are written, and what is behind them. -/
def splitVariants (raw : String) : List String × String :=
  let parts := segment raw ':'
  (parts.dropLast, parts.getLastD "")

/-- All readings of a class name. -/
def readCandidates (us : Utilities) (vs : Variants) (raw : String) : List Candidate :=
  let (heads, last) := splitVariants raw
  if heads.any (·.isEmpty) then []
  else match heads.mapM vs.read? with
    | none => []
    | some variants =>
      let (text, important) := cutImportant last
      (us.readForms text).map fun form => ⟨form, variants, important, raw⟩

end UtilityCss
