import UtilityCss.Stylesheet.Node

/-!
# Registered properties

A utility that works together with others through variables registers each variable with an
`@property` node in its output. `extractProperties` takes these nodes out of a forest, and
`propertyNodes` writes every property once, behind a block that sets the variables in browsers
that do not know `@property`.
-/

namespace UtilityCss

structure PropertyDefinition where
  /-- What values the property has, as a quoted text. -/
  grammar : String := "\"*\""
  inherits : Bool := false
  initial : Option String := none
  deriving DecidableEq, Repr

/-- The definitions of properties by name, in the order of the first ones. -/
abbrev PropertyRegistry := List (String × PropertyDefinition)

namespace PropertyRegistry

/-- Adds a definition, unless the property has one. -/
def register (r : PropertyRegistry) (p : String × PropertyDefinition) : PropertyRegistry :=
  if r.any (·.1 == p.1) then r else r ++ [p]

def get? (r : PropertyRegistry) (name : String) : Option PropertyDefinition := r.lookup name

end PropertyRegistry

namespace PropertyDefinition

/-- Takes over what a declaration in the block of a definition says. -/
def read (d : PropertyDefinition) : Node → PropertyDefinition
  | .decl "syntax" value _ => { d with grammar := value }
  | .decl "inherits" value _ => { d with inherits := value == "true" }
  | .decl "initial-value" value _ => { d with initial := some value }
  | _ => d

def ofNodes (ns : List Node) : PropertyDefinition := ns.foldl read {}

/-- The node that defines a property. -/
def node (name : String) (d : PropertyDefinition) : Node :=
  .atRule "property" name
    ([.plain "syntax" d.grammar, .plain "inherits" (if d.inherits then "true" else "false")] ++
      (d.initial.map (Node.plain "initial-value")).toList)

end PropertyDefinition

/-- The property that a node defines. -/
def Node.property? (n : Node) : Option (String × PropertyDefinition) :=
  if n.isAt "property" then
    let params := match n with
      | .atRule _ params _ => params
      | .statement _ params => params
      | _ => ""
    if Text.startsWith params "--" then some (Text.trim params, .ofNodes n.children) else none
  else none

/-- The properties that are defined in a forest, in document order. -/
def definedProperties (ns : List Node) : List (String × PropertyDefinition) :=
  (visited (·.property?.isNone) ns).filterMap Node.property?

/-- The forest without the nodes that define properties. -/
def withoutProperties (ns : List Node) : List Node :=
  replaceEach (fun n => if n.property?.isSome then some [] else none) ns

/-- Takes the definitions of properties out of a forest. -/
def extractProperties (r : PropertyRegistry) (ns : List Node) : List Node × PropertyRegistry :=
  (withoutProperties ns, (definedProperties ns).foldl PropertyRegistry.register r)

/-- Tells browsers that do not know `@property`. -/
def propertyFallbackQuery : String :=
  "((-webkit-hyphens: none) and (not (margin-trim: inline))) or ((-moz-orient: inline) and " ++
    "(not (color:rgb(from red r g b))))"

/-- Sets every property to its initial value for browsers that do not know `@property`. -/
def propertyFallback (r : PropertyRegistry) : Node :=
  .atRule "supports" propertyFallbackQuery
    [.atRule "layer" "base"
      [.rule "*, ::before, ::after, ::backdrop"
        (r.map fun (name, d) => .plain name (d.initial.getD "initial"))]]

/-- The nodes that define the registered properties. -/
def propertyNodes (r : PropertyRegistry) : List Node :=
  if r.isEmpty then [] else propertyFallback r :: r.map fun (name, d) => d.node name

end UtilityCss
