import UtilityCss.Stylesheet.Node
import UtilityCss.Theme.Options

/-!
# Entries and events of a theme

A theme is a table of custom properties. It is built from events in the order of the source: a
property is set, a property or a whole namespace is unset, or keyframes are defined.
-/

namespace UtilityCss

structure ThemeEntry where
  /-- The name of the custom property, such as `--color-red-500`. -/
  key : String
  value : String
  options : ThemeOptions
  /-- Whether the property may be declared in the output: some block that set it was no reference. -/
  emittable : Bool
  deriving DecidableEq, Repr

/-- How a utility writes the value: as a reference with the value to fall back on, or as the bare
value if the property is inline or never declared. -/
def ThemeEntry.render (e : ThemeEntry) : String :=
  if !e.emittable || e.options.isInline then e.value
  else "var(" ++ e.key ++ ", " ++ e.value ++ ")"

structure ThemeKeyframes where
  name : String
  node : Node
  options : ThemeOptions
  deriving Repr

inductive ThemeEvent where
  /-- The value `initial` unsets the property. -/
  | set (key value : String) (options : ThemeOptions)
  /-- Unsets a property and all whose names continue it behind a dash. -/
  | unsetNamespace (name : String)
  | unsetAll
  | keyframes (k : ThemeKeyframes)
  deriving Repr

/-- What a declaration in a theme block does: `--*` and `--name-*` with the value `initial` unset
everything and a namespace. -/
def ThemeEvent.ofDeclaration (key value : String) (options : ThemeOptions) : ThemeEvent :=
  let key := Text.trim key
  let value := Text.trim value
  if value != "initial" then .set key value options
  else if key == "--*" then .unsetAll
  else match Text.beforeTail? "-*" key with
    | some name => .unsetNamespace name
    | none => .set key value options

end UtilityCss
