import UtilityCss.Utility.Recipe

/-!
# Tables of utilities

The forms in which the built-in utilities are written down.
-/

namespace UtilityCss

/-- Utilities by name in the order of the cascade. -/
abbrev UtilityTable := List (String × Recipe)

/-- A utility of fixed declarations. -/
def declares (name : String) (pairs : List (String × String)) : String × Recipe :=
  (name, .fixed (pairs.map fun (property, value) => .plain property value))

/-- A utility of fixed nodes. -/
def constant (name : String) (output : List Template) : String × Recipe :=
  (name, .fixed (fillTemplates "" output))

/-- Utilities that set one property each, named by a common start and an end of their own. -/
def family (start property : String) (values : List (String × String)) : UtilityTable :=
  values.map fun (ending, value) =>
    declares (if start.isEmpty then ending else start ++ "-" ++ ending) [(property, value)]

/-- Words that stand for themselves. -/
def themselves (words : List String) : List (String × String) := words.map fun w => (w, w)

/-- Utilities that set some properties each to a value found by the same rule. -/
def setters (rule : ValueRule) (table : List (String × List String)) : UtilityTable :=
  table.map fun (name, properties) => (name, .valued rule (setAll properties))

/-- A utility that sets a property to a colour. -/
def colorSetter (name property : String) (keys : List String) : String × Recipe :=
  (name, .colored keys (setAll [property]))

/-- The rule of utilities on the spacing scale. -/
def spacingRule (keys : List String) : ValueRule :=
  { themeKeys := keys, keywords := [("px", "1px")], bare := .spacing }

/-- A variable that is registered without an initial value. -/
def uninitialized (name : String) : Template := .property name {}

/-- A variable that is registered with an initial value. -/
def initialized (name initial : String) : Template := .property name { initial := some initial }

end UtilityCss
