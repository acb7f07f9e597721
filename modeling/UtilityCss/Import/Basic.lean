import UtilityCss.Stylesheet.Node
import UtilityCss.Text.Call
import UtilityCss.Text.Nesting

/-!
# Imports

The parameters of an `@import` are a quoted name and conditions. The nodes of the stylesheet are
wrapped in the conditions. Imports of remote stylesheets and of `url()` stay as they are.
-/

namespace UtilityCss

/-- A local import. -/
structure Import where
  name : String
  /-- The layer that the nodes are in, which may have no name. -/
  layer : Option String := none
  supports : Option String := none
  media : List String := []
  /-- Options for all theme blocks of the stylesheet. -/
  theme : Option String := none
  deriving DecidableEq, Repr

/-- The arguments of a call of `name`, if the text is one. -/
def callArgument? (name text : String) : Option String :=
  ((Text.afterLead? (name ++ "(") text).bind (Text.beforeTail? ")")).map Text.trim

namespace Import

/-- Takes a condition into account. The rest of the conditions form a media query. -/
def add (i : Import) (part : String) : Import :=
  if part == "layer" then { i with layer := some "" }
  else match callArgument? "layer" part, callArgument? "supports" part,
      callArgument? "theme" part, callArgument? "source" part with
    | some layer, _, _, _ => { i with layer := some layer }
    | none, some query, _, _ =>
      { i with supports := some (if Text.containsChar query '(' then query else "(" ++ query ++ ")") }
    | none, none, some options, _ => { i with theme := some options }
    | none, none, none, some _ => i
    | none, none, none, none => { i with media := i.media ++ [part] }

def isRemote (name : String) : Bool :=
  ["http://", "https://", "//"].any (Text.startsWith name)

/-- Reads the parameters of an import; none for an import that stays as it is. -/
def read? (params : String) : Option Import :=
  match ((segment (Text.trim params) ' ').map Text.trim).filter (!·.isEmpty) with
  | [] => none
  | first :: parts =>
    (Text.unquote? first).bind fun name =>
      if isRemote name then none else some (parts.foldl add { name })

end Import

mutual

/-- Adds options to all theme blocks in a node. -/
def Node.addThemeOptions (options : String) : Node → Node
  | .rule sel ns => .rule sel (addThemeOptions options ns)
  | .atRule name params ns =>
    if name == "theme" then .atRule name (Text.trim (Text.trim params ++ " " ++ options)) ns
    else .atRule name params (addThemeOptions options ns)
  | n => n

def addThemeOptions (options : String) : List Node → List Node
  | [] => []
  | n :: ns => n.addThemeOptions options :: addThemeOptions options ns

end

/-- Wraps nodes in an at-rule if there are parameters for it. -/
def wrapIn (name : String) (params : Option String) (ns : List Node) : List Node :=
  match params with
  | some params => [.atRule name params ns]
  | none => ns

/-- Wraps imported nodes in the conditions, in the layer outermost. -/
def Import.wrap (i : Import) (ns : List Node) : List Node :=
  let ns := match i.theme with
    | some options => addThemeOptions options ns
    | none => ns
  let media := if i.media.isEmpty then none else some (" ".intercalate i.media)
  wrapIn "layer" i.layer (wrapIn "supports" i.supports (wrapIn "media" media ns))

end UtilityCss
