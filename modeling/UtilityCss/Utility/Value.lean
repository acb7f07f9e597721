import UtilityCss.Candidate.Basic
import UtilityCss.Color.Alpha
import UtilityCss.Theme.Lookup
import UtilityCss.Value.Inference

/-!
# Values of utilities

A utility finds the value of a candidate among its keywords, in the theme, in what it makes of bare
numbers and words, or takes an arbitrary value of the right type. Colours may have a transparency.
-/

namespace UtilityCss

def negate (value : String) : String := "calc(" ++ value ++ " * -1)"

/-- What a utility makes of a value that is neither a keyword nor in the theme. -/
inductive BareValue where
  | nothing
  /-- A multiple of the spacing unit. -/
  | spacing
  | integer
  | pixels
  | percent
  | degrees
  | milliseconds
  /-- A number of grid tracks. -/
  | tracks
  | cursor
  /-- A percentage, for the stop of a gradient. -/
  | stopPosition
  | fontWeight
  deriving DecidableEq, Repr

def cursors : List String :=
  ["auto", "default", "pointer", "wait", "text", "move", "help", "not-allowed", "none",
   "context-menu", "progress", "cell", "crosshair", "vertical-text", "alias", "copy", "no-drop",
   "grab", "grabbing", "all-scroll", "col-resize", "row-resize", "n-resize", "e-resize",
   "s-resize", "w-resize", "ne-resize", "nw-resize", "se-resize", "sw-resize", "ew-resize",
   "ns-resize", "nesw-resize", "nwse-resize", "zoom-in", "zoom-out"]

def fontWeights : List (String × String) :=
  [("thin", "100"), ("extralight", "200"), ("light", "300"), ("normal", "400"),
   ("medium", "500"), ("semibold", "600"), ("bold", "700"), ("extrabold", "800"),
   ("black", "900")]

/-- A multiple of the spacing unit of the theme. -/
def spacingOf? (t : Theme) (value : String) : Option String :=
  if isSpacingMultiplier value then
    (t.resolve none ["--spacing"]).map fun unit => "calc(" ++ unit ++ " * " ++ value ++ ")"
  else none

/-- A multiple of a quarter with a unit behind it. -/
def stepWithUnit? (unit value : String) : Option String :=
  if isSpacingMultiplier value then some (value ++ unit) else none

/-- A count with a unit behind it. -/
def countWithUnit? (unit value : String) : Option String :=
  (readCount? value).map fun n => toString n ++ unit

namespace BareValue

def read? (t : Theme) (value : String) : BareValue → Option String
  | nothing => none
  | spacing => spacingOf? t value
  | integer => (readCount? value).map fun _ => value
  | pixels => countWithUnit? "px" value
  | percent => stepWithUnit? "%" value
  | degrees => stepWithUnit? "deg" value
  | milliseconds => countWithUnit? "ms" value
  | tracks => do
    let n ← readCount? value
    if n == 0 then none else some ("repeat(" ++ toString n ++ ", minmax(0, 1fr))")
  | cursor => if cursors.contains value then some value else none
  | stopPosition => ((Text.beforeTail? "%" value).bind readDouble?).map fun _ => value
  | fontWeight => fontWeights.lookup value

end BareValue

/-- How a utility finds its value. -/
structure ValueRule where
  /-- The namespaces of the theme, in the order in which they are tried. -/
  themeKeys : List String := []
  keywords : List (String × String) := []
  /-- The key of the value for a class name without one. -/
  defaultKey : Option String := none
  /-- The value for a class name without one where the theme has none. -/
  defaultValue : Option String := none
  bare : BareValue := .nothing
  /-- The types that an arbitrary value may have; none admit any value. -/
  types : List DataType := []
  negatable : Bool := false
  fractions : Bool := false
  deriving Repr

namespace ValueRule

/-- The value of a class name that gives none. -/
def default? (r : ValueRule) (t : Theme) : Option String :=
  r.defaultKey.bind (t.resolve none [·]) <|> r.defaultValue <|>
    r.themeKeys.head?.bind (t.resolve none [·])

/-- The value that a plain name stands for. -/
def named? (r : ValueRule) (t : Theme) (value : String) : Option String :=
  r.keywords.lookup value <|> t.resolve (some value) r.themeKeys <|> r.bare.read? t value

/-- The value that a fraction stands for: the theme's, or a part of the whole. -/
def fraction? (r : ValueRule) (t : Theme) (fraction : String) : Option String :=
  if r.fractions && isFraction fraction then
    some ((t.resolve (some fraction) r.themeKeys).getD ("calc(" ++ fraction ++ " * 100%)"))
  else none

/-- The value without its sign. Only a fraction makes use of a modifier. -/
def magnitude? (r : ValueRule) (t : Theme) (value : Option CandidateValue)
    (modifier : Option Argument) : Option String :=
  match value with
  | some (.named _ (some fraction)) => r.fraction? t fraction
  | some (.named value none) => if modifier.isSome then none else r.named? t value
  | some (.arbitrary value hint) =>
    if modifier.isSome || !acceptsArbitrary value hint r.types then none else some value
  | none => if modifier.isSome then none else r.default? t

/-- The value of a candidate. -/
def resolve? (r : ValueRule) (t : Theme) (c : Candidate) : Option String :=
  if c.negative then
    if r.negatable then (r.magnitude? t c.value? c.modifier?).map negate else none
  else r.magnitude? t c.value? c.modifier?

end ValueRule

/-- The alpha value that a modifier stands for: an opacity of the theme or a percentage. -/
def alphaOf? (t : Theme) : Argument → Option String
  | .named value => t.resolve (some value) ["--opacity"] <|> normalizeAlpha value false
  | .arbitrary value => normalizeAlpha value true

/-- The colour that a value stands for. A variable may be a colour. -/
def baseColor? (t : Theme) (keys : List String) : CandidateValue → Option String
  | .named "current" _ => some "currentcolor"
  | .named "inherit" _ => some "inherit"
  | .named "transparent" _ => some "transparent"
  | .named value _ => t.resolve (some value) keys
  | .arbitrary value (some hint) => if hint == "color" then some value else none
  | .arbitrary value none =>
    if isVariable value || (inferDataType value [.color]).isSome then some value else none

/-- The colour of a value with the transparency of a modifier. An inherited colour has none. -/
def resolveColor? (t : Theme) (keys : List String) (value : CandidateValue)
    (modifier : Option Argument) : Option String := do
  let base ← baseColor? t keys value
  match modifier with
  | none => return base
  | some m => if base == "inherit" then none else return withAlpha base (← alphaOf? t m)

end UtilityCss
