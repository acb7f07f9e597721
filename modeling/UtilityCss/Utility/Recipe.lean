import UtilityCss.Utility.Custom
import UtilityCss.Utility.Match
import UtilityCss.Utility.Template

/-!
# What utilities generate

A recipe gives the nodes that a utility makes for a candidate, or none if the candidate does not
fit. Most recipes are data: fixed nodes, or a template around a value or colour. The last five are
built-in utilities whose output depends on the form of the value.
-/

namespace UtilityCss

inductive UtilityKind where
  | static
  | functional
  deriving DecidableEq, Repr

inductive Recipe where
  | fixed (nodes : List Node)
  | valued (rule : ValueRule) (output : List Template)
  | colored (keys : List String) (output : List Template)
  | declared (body : List Node)
  | matched (rule : MatchRule) (trees : List PluginTree)
  | aspectRatio
  /-- Images, positions and sizes of backgrounds as arbitrary values. -/
  | background
  /-- A linear gradient by its direction. -/
  | gradient
  /-- A font size with the line height and the spacing that belong to it. -/
  | fontSize
  | content

/-- The proportion that a value stands for. -/
def aspectRatio? (t : Theme) : CandidateValue → Option String
  | .arbitrary value hint => if acceptsArbitrary value hint [.ratio] then some value else none
  | .named _ (some fraction) => if isFraction fraction then some fraction else none
  | .named "auto" none => some "auto"
  | .named "square" none => some "1 / 1"
  | .named value none =>
    t.resolve (some value) ["--aspect"] <|> if value == "video" then some "16 / 9" else none

/-- The property of a background that an arbitrary value is for, by the type named with it or the
one that it has. -/
def backgroundProperty? (value : String) : Option String → Option String
  | some hint =>
    if ["image", "url"].contains hint then some "background-image"
    else if hint == "position" then some "background-position"
    else if ["size", "bg-size", "length", "percentage"].contains hint then some "background-size"
    else none
  | none => (inferDataType value [.image, .position, .bgSize]).map fun
    | .image => "background-image"
    | .position => "background-position"
    | _ => "background-size"

def gradientDirections : List (String × String) :=
  [("to-t", "to top"), ("to-tr", "to top right"), ("to-r", "to right"),
   ("to-br", "to bottom right"), ("to-b", "to bottom"), ("to-bl", "to bottom left"),
   ("to-l", "to left"), ("to-tl", "to top left")]

/-- The direction of a gradient, by name or as an angle. -/
def gradientDirection? (value : String) : Option String :=
  (gradientDirections.lookup value <|> stepWithUnit? "deg" value).map (· ++ " in oklab")

/-- The variables that the utilities for gradients share. -/
def gradientProperties : List Template :=
  [.property "--tw-gradient-position" {},
   .property "--tw-gradient-from" { initial := some "#0000", grammar := "\"<color>\"" },
   .property "--tw-gradient-via" { initial := some "#0000", grammar := "\"<color>\"" },
   .property "--tw-gradient-to" { initial := some "#0000", grammar := "\"<color>\"" },
   .property "--tw-gradient-stops" {},
   .property "--tw-gradient-via-stops" {},
   .property "--tw-gradient-from-position"
     { initial := some "0%", grammar := "\"<length-percentage>\"" },
   .property "--tw-gradient-via-position"
     { initial := some "50%", grammar := "\"<length-percentage>\"" },
   .property "--tw-gradient-to-position"
     { initial := some "100%", grammar := "\"<length-percentage>\"" }]

/-- A gradient in a direction, or with all its arguments given. -/
def gradientNodes? : CandidateValue → Option (List Node)
  | .arbitrary value _ => some (fillTemplates value
      ([.set "--tw-gradient-position",
        .decl "background-image" ["linear-gradient(var(--tw-gradient-stops, ", "))"]] ++
        gradientProperties))
  | .named value none => (gradientDirection? value).map fun direction =>
      fillTemplates direction
        ([.set "--tw-gradient-position",
          .fixed "background-image" "linear-gradient(var(--tw-gradient-stops))"] ++
          gradientProperties)
  | .named _ (some _) => none

/-- What is nested in a font size of the theme: the suffix of its key, the property it sets and the
variable that overrides it. -/
def fontSizeParts : List (String × String × String) :=
  [("--line-height", "line-height", "--tw-leading"),
   ("--letter-spacing", "letter-spacing", "--tw-tracking"),
   ("--font-weight", "font-weight", "--tw-font-weight")]

def fontSizeTypes : List DataType := [.length, .percentage, .absoluteSize, .relativeSize]

/-- A font size and the declarations that belong to it. -/
def fontSize? (t : Theme) : CandidateValue → Option (String × List Node)
  | .arbitrary value hint =>
    if acceptsArbitrary value hint fontSizeTypes then some (value, []) else none
  | .named value _ => do
    let (size, nested) ← t.resolveWith value ["--text"] (fontSizeParts.map (·.1))
    return (size, nested.filterMap fun (suffix, text) =>
      (fontSizeParts.lookup suffix).map fun (property, shared) =>
        .plain property ("var(" ++ shared ++ ", " ++ text ++ ")"))

/-- The line height that the modifier of a font size gives. -/
def lineHeight? (t : Theme) : Argument → Option String
  | .named value => t.resolve (some value) ["--leading"] <|> spacingOf? t value
  | .arbitrary value => some value

/-- The declarations for a font size. A modifier is the line height and leaves out all else. -/
def fontSizeNodes? (t : Theme) (value : CandidateValue) (modifier : Option Argument) :
    Option (List Node) := do
  let (size, nested) ← fontSize? t value
  match modifier with
  | none => return .plain "font-size" size :: nested
  | some m => return [.plain "font-size" size, .plain "line-height" (← lineHeight? t m)]

namespace Recipe

def kind : Recipe → UtilityKind
  | fixed _ => .static
  | _ => .functional

/-- The nodes for a candidate. -/
def nodes? (t : Theme) (c : Candidate) : Recipe → Option (List Node)
  | fixed nodes => if c.negative then none else some nodes
  | valued rule output => (rule.resolve? t c).map (fillTemplates · output)
  | colored keys output => do
    let color ← resolveColor? t keys (← c.value?) c.modifier?
    if c.negative then none else return fillTemplates color output
  | declared body => customNodes? t body c
  | matched rule trees => rule.nodes? trees c
  | aspectRatio => do
    let ratio ← aspectRatio? t (← c.value?)
    if c.negative then none else return [.plain "aspect-ratio" ratio]
  | background =>
    match c.value? with
    | some (.arbitrary value hint) =>
      if c.negative || c.modifier?.isSome then none
      else (backgroundProperty? value hint).map fun property => [.plain property value]
    | _ => none
  | gradient => do
    let ns ← gradientNodes? (← c.value?)
    if c.negative || c.modifier?.isSome then none else return ns
  | fontSize => do
    let ns ← fontSizeNodes? t (← c.value?) c.modifier?
    if c.negative then none else return ns
  | content =>
    match c.value? with
    | some (.arbitrary value _) =>
      if c.negative || c.modifier?.isSome then none
      else some (fillTemplates value
        [.set "--tw-content", .fixed "content" "var(--tw-content)",
         .property "--tw-content" { initial := some "\"\"" }])
    | _ => none

end Recipe

end UtilityCss
