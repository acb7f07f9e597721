import UtilityCss.Config.Basic
import UtilityCss.Theme.Lookup
import UtilityCss.Theme.Path

/-!
# Theme values of configurations

Every text and number in the theme of a configuration sets the custom property that its path names.
Such values are defaults, and they are written out wherever they are used.
-/

namespace UtilityCss

/-- A text, or a number as it is written. -/
def JsonValue.scalar? : JsonValue → Option String
  | .string s => some s
  | .number n => some n.text
  | _ => none

/-- Writes `lineHeight` as `line-height`. -/
def dashCapitals (s : String) : String :=
  String.ofList (s.toList.flatMap fun c => if c.isUpper then ['-', c.toLower] else [c])

/-- What is set behind a font size that is the first item of a pair: the line height, or whatever an
object lists. -/
def fontSizeDetails (key : String) : JsonValue → List (String × String)
  | .string lineHeight => [(key ++ "--line-height", lineHeight)]
  | .object fields => fields.filterMap fun (name, v) =>
      v.scalar?.map fun text => (key ++ "--" ++ dashCapitals name, text)
  | _ => []

/-- The font size with details that a list is, if it is one. -/
def fontSizePair? (path : List String) : List JsonValue → Option (String × JsonValue)
  | [.string size, .string lineHeight] =>
    if path.head? == some "fontSize" then some (size, .string lineHeight) else none
  | [.string size, .object fields] =>
    if path.head? == some "fontSize" then some (size, .object fields) else none
  | _ => none

mutual

/-- The keys and values that a value sets at a path. -/
def JsonValue.settings (path : List String) : JsonValue → List (String × String)
  | .object fields => fieldSettings path fields
  | .list items => match keyPathToProperty path, fontSizePair? path items with
    | none, _ => []
    | some key, some (size, details) => (key, size) :: fontSizeDetails key details
    | some key, none => [(key, ", ".intercalate (items.filterMap JsonValue.scalar?))]
  | v => match keyPathToProperty path, v.scalar? with
    | some key, some text => [(key, text)]
    | _, _ => []

def fieldSettings (path : List String) : List (String × JsonValue) → List (String × String)
  | [] => []
  | (name, v) :: fields =>
    v.settings (path ++ [escapeKeySegment name]) ++ fieldSettings path fields

end

namespace Config

/-- How values of configurations are registered. -/
def themeOptions : ThemeOptions := { isInline := true, isReference := true, isDefault := true }

/-- The events that set the values of the theme, the further values last. -/
def themeEvents (c : Config) : List ThemeEvent :=
  (c.values ++ c.extend).flatMap fun (name, v) =>
    (v.settings [name]).map fun (key, value) => .set key value themeOptions

end Config

end UtilityCss
