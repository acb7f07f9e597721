import UtilityCss.CompileError
import UtilityCss.Json.Tree
import UtilityCss.Variant.Builtin

/-!
# Configurations

A configuration is a JSON object with values for the theme, the names of plugins and a dark mode.
Other fields are ignored. Instead of an object there may be a list of the three in this order.
-/

namespace UtilityCss

/-- The dark mode as a configuration writes it: a strategy, alone or with selectors. -/
inductive DarkModeSetting where
  | strategy (name : String)
  | withSelector (strategy selector : String)
  | withList (strategy : String) (selectors : List String)
  deriving DecidableEq, Repr

structure Config where
  /-- The values of the theme by namespace, in the order of the namespaces. -/
  values : List (String × JsonValue) := []
  /-- Further values of the theme, which come behind the others. -/
  extend : List (String × JsonValue) := []
  plugins : List String := []
  darkMode : Option DarkModeSetting := none
  deriving Repr

namespace DarkModeSetting

def ofTree? : JsonTree → Option DarkModeSetting
  | .string units => (unitsText? units).map strategy
  | .list [name, .string units] => do
    let name ← name.text?
    let selector ← unitsText? units
    return withSelector name selector
  | .list [name, .list items] => do
    let name ← name.text?
    let selectors ← items.mapM JsonTree.text?
    return withList name selectors
  | _ => none

/-- The dark mode that the setting asks for. -/
def mode : DarkModeSetting → Except CompileError DarkMode
  | strategy "media" => .ok .media
  | strategy "class" | strategy "selector" => .ok (.selector ".dark")
  | withSelector "class" selector | withSelector "selector" selector => .ok (.selector selector)
  | withSelector "variant" selector => .ok (.variant [selector])
  | withList "variant" selectors => .ok (.variant selectors)
  | strategy name | withSelector name _ | withList name _ =>
    .error (.invalidDirective (.darkMode name))

end DarkModeSetting

namespace Config

/-- The values of a theme object: the plain ones, and those of the field `extend`, which has to be an
object and to stand once. -/
def themeOfTree? : JsonTree → Option (List (String × JsonValue) × List (String × JsonValue))
  | .object fields => do
    let fields ← fieldValues? (JsonTree.nestingLimit - 2) fields
    let (extensions, values) := fields.partition (·.1 == "extend")
    match extensions with
    | [] => return (sortFields values, [])
    | [(_, .object extend)] => return (sortFields values, extend)
    | _ => none
  | _ => none

def pluginsOfTree? : JsonTree → Option (List String)
  | .list items => items.mapM JsonTree.text?
  | _ => none

def darkModeOfTree? : JsonTree → Option (Option DarkModeSetting)
  | .null => some none
  | t => (DarkModeSetting.ofTree? t).map some

/-- The configuration with the given parts, each of which may be absent. -/
def ofParts? (theme plugins darkMode : Option JsonTree) : Option Config := do
  let (values, extend) ← (theme.map themeOfTree?).getD (some ([], []))
  let plugins ← (plugins.map pluginsOfTree?).getD (some [])
  let darkMode ← (darkMode.map darkModeOfTree?).getD (some none)
  return { values, extend, plugins, darkMode }

/-- The field of a name, which may be absent but not stand several times. -/
def fieldOnce? (name : String) (fields : List (String × JsonTree)) : Option (Option JsonTree) :=
  match fields.filter (·.1 == name) with
  | [] => some none
  | [(_, t)] => some (some t)
  | _ => none

def ofTree? : JsonTree → Option Config
  | .object fields => do
    let fields ← fields.mapM fun (units, t) => (unitsText? units).map (·, t)
    ofParts? (← fieldOnce? "theme" fields) (← fieldOnce? "plugins" fields)
      (← fieldOnce? "darkMode" fields)
  | .list items => if items.length ≤ 3 then ofParts? items[0]? items[1]? items[2]? else none
  | _ => none

/-- Reads a configuration from a JSON text. -/
def read? (text : String) : Option Config := (JsonTree.read? text).bind ofTree?

/-- The dark mode that the configuration asks for, if it says something about it. -/
def mode? (c : Config) : Except CompileError (Option DarkMode) :=
  match c.darkMode with
  | none => .ok none
  | some setting => setting.mode.map some

end Config

end UtilityCss
