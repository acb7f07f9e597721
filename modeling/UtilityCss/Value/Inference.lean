import UtilityCss.Text.Blank
import UtilityCss.Value.DataType
import UtilityCss.Value.Color
import UtilityCss.Value.Measure

/-!
# Inference of types

`DataType.admits` says whether a value is of a type, and `inferDataType` takes the first type of a
list that a value is of. A reference to a variable could be of any type and is inferred to be of
none.
-/

namespace UtilityCss

def positionWords : List String := ["top", "right", "bottom", "left", "center"]

def genericFamilies : List String :=
  ["serif", "sans-serif", "monospace", "cursive", "fantasy", "system-ui", "ui-serif",
   "ui-sans-serif", "ui-monospace", "ui-rounded", "math", "emoji", "fangsong"]

def absoluteSizes : List String :=
  ["xx-small", "x-small", "small", "medium", "large", "x-large", "xx-large", "xxx-large"]

def isVariable (value : String) : Bool := Text.startsWith value "var("

def isImage (value : String) : Bool :=
  ["url(", "image(", "image-set(", "cross-fade("].any (Text.startsWith value) ||
    Text.containsPhrase value "gradient("

namespace DataType

/-- Whether a value is of the type. -/
def admits : DataType → String → Bool
  | color, v => isColor v
  | length, v => isLength v || isMath v
  | percentage, v => isPercentage v || isMath v
  | number, v => isNumber v || isMath v
  | integer, v => (readInt? twoPow63 v).isSome || isMath v
  | ratio, v => isFraction (Text.replaceChar ' ' "" v) || isNumber v
  | url, v => Text.startsWith v "url("
  | image, v => isImage v
  | position, v => (Text.words v).all fun w =>
      positionWords.contains w || isLength w || isPercentage w
  | bgSize, v => ["cover", "contain", "auto"].contains v ||
      (Text.words v).all fun w => w == "auto" || isLength w || isPercentage w
  | lineWidth, v => ["thin", "medium", "thick"].contains v || isLength v || isMath v
  | angle, v => isAngle v
  | familyName, v => !isColor v && !isNumber v && !isVariable v
  | genericName, v => genericFamilies.contains v
  | absoluteSize, v => absoluteSizes.contains v
  | relativeSize, v => ["larger", "smaller"].contains v
  | vector, v => (Text.words v).length == 3 && (Text.words v).all isNumber
  | any, _ => true

end DataType

/-- The first of the types that a value is of. -/
def inferDataType (value : String) (types : List DataType) : Option DataType :=
  if isVariable value then none else types.find? (·.admits value)

/-- Whether an arbitrary value may stand where the types are asked for. A type named with the
value decides alone; without one the value's own form does. No types at all admit everything. -/
def acceptsArbitrary (value : String) (hint : Option String) (types : List DataType) : Bool :=
  if types.isEmpty then true
  else match hint with
    | some name => (DataType.ofName? name).any fun t => types.contains t || t == .any
    | none => (inferDataType value types).isSome

end UtilityCss
