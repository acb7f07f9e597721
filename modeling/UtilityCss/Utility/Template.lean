import UtilityCss.Stylesheet.Property

/-!
# Templates for the output of utilities

A template is a node with places for a value. The text of a declaration is kept as the pieces
between these places, so that two empty pieces are the value itself and one piece is a fixed text.
-/

namespace UtilityCss

inductive Template where
  | decl (property : String) (pieces : List String)
  | rule (selector : String) (body : List Template)
  | property (name : String) (definition : PropertyDefinition)
  deriving Repr

mutual

/-- The node with the value in all its places. -/
def Template.fill (value : String) : Template → Node
  | .decl property pieces => .plain property (value.intercalate pieces)
  | .rule selector body => .rule selector (fillTemplates value body)
  | .property name definition => definition.node name

def fillTemplates (value : String) : List Template → List Node
  | [] => []
  | t :: ts => t.fill value :: fillTemplates value ts

end

namespace Template

/-- Sets a property to the value. -/
def set (property : String) : Template := .decl property ["", ""]

/-- Sets a property to a fixed text. -/
def fixed (property text : String) : Template := .decl property [text]

end Template

/-- Sets each of some properties to the value. -/
def setAll (properties : List String) : List Template := properties.map Template.set

end UtilityCss
