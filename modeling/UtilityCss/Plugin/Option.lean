import UtilityCss.CompileError
import UtilityCss.Json.Tree
import UtilityCss.Plugin.Module
import UtilityCss.Text.Call
import UtilityCss.Theme.Block

/-!
# Options of plugins

The declarations in an `@plugin` block are the options of the plugin.
-/

namespace UtilityCss

/-- A JSON literal is its value, a quoted text the text in it, and any other text stands for
itself. -/
def readOptionItem (text : String) : JsonValue :=
  let text := Text.trim text
  match Text.unquote? text with
  | some inner => .string inner
  | none => match JsonValue.read? text with
    | some .null => .null
    | some (.bool b) => .bool b
    | some (.number n) => .number n
    | _ => .string text

/-- The value of an option. Several items between commas form a list. -/
def readOption (text : String) : JsonValue :=
  match segment text ',' with
  | [_] => readOptionItem text
  | items => .list (items.map readOptionItem)

/-- The options that a block for the named plugin gives. -/
def readOptions (id : String) (body : List Node) : Except CompileError PluginOptions :=
  body.foldlM (fun options n => match n with
    | .decl property value _ => .ok (setField property (readOption value) options)
    | .comment _ => .ok options
    | n => .error (.invalidDirective (.pluginOption id n.excerpt))) []

end UtilityCss
