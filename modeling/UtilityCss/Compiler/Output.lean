import UtilityCss.Compiler.Basic
import UtilityCss.Stylesheet.Flatten
import UtilityCss.Theme.Reference

/-!
# Output

`Compiler.build` writes the stylesheet for the class names in use: the rules for them, sorted, in
the place of the mark, the variables and keyframes of the theme that it reads, and the definitions of
the properties that the utilities need.
-/

namespace UtilityCss

/-- The words in a value: runs of letters, digits, `-` and `_`. -/
def nameWords (value : String) : List String :=
  (Text.splitBy (!isNameChar ·) value).filter (!·.isEmpty)

/-- The words that may name keyframes in a declaration. -/
def Node.animationWords : Node → List String
  | .decl property value _ =>
    if Text.startsWith property "animation" || Text.startsWith property "--animate" then
      nameWords value
    else []
  | _ => []

/-- Whether keyframes are written, where the given words may name keyframes. -/
def ThemeKeyframes.isEmitted (k : ThemeKeyframes) (words : List String) : Bool :=
  !k.options.isReference && (k.options.isStatic || words.contains k.name)

/-- Whether a node is a rule for the host of a shadow tree. -/
def Node.isHostRule : Node → Bool
  | .rule selector _ => Text.containsPhrase selector ":host"
  | _ => false

namespace Compiler

/-- The distinct class names without blanks around them, in order. -/
def classNames (names : List String) : List String :=
  (sortBy compare ((names.map Text.trim).filter (!·.isEmpty))).eraseDups

/-- The compiled class names among some texts, in the order of the output. -/
def compiled (c : Compiler) (names : List String) : List CompiledCandidate :=
  c.system.sort ((classNames names).filterMap c.system.compile?)

/-- The rules for class names. -/
def utilityRules (c : Compiler) (names : List String) : List Node :=
  (c.compiled names).map (·.rule)

/-- The stylesheet with the rules for class names in it. -/
def assembled (c : Compiler) (names : List String) : List Node :=
  (placeAtFirst Node.isUtilitiesMark (c.utilityRules names) c.nodes).1

/-- The selector of the elements that the theme's variables are declared for. -/
def rootSelector (c : Compiler) : String :=
  if (allNodes c.nodes).any Node.isHostRule then ":root, :host" else ":root"

/-- The rule that declares the variables of the theme that some nodes read. -/
def variableRule (c : Compiler) (ns : List Node) : List Node :=
  let entries := (c.system.theme.entriesUsed ns).filterMap c.system.theme.get?
  if entries.isEmpty then []
  else [.rule c.rootSelector (entries.map fun e => .plain e.key e.value)]

/-- What the theme adds to some nodes: variables and keyframes that they use. -/
def themeNodes (c : Compiler) (ns : List Node) : List Node :=
  let root := c.variableRule ns
  let words := (allNodes (ns ++ root)).flatMap Node.animationWords
  root ++ (c.system.theme.keyframes.filter (·.isEmitted words)).map (·.node)

/-- Puts what the theme adds in the place of its mark, or in front of everything. -/
def withTheme (c : Compiler) (ns : List Node) : List Node :=
  let theme := c.themeNodes ns
  let (placed, met) := placeAtFirst Node.isThemeMark theme ns
  if met then placed else theme ++ placed

/-- The nodes of the output. -/
def output (c : Compiler) (names : List String) : List Node :=
  let (ns, registry) := extractProperties [] (c.assembled names)
  c.withTheme (flatten ns) ++ propertyNodes registry

/-- The stylesheet for the class names in use. Their order does not matter, and names that stand for
nothing are left out. -/
def build (c : Compiler) (names : List String) : String := toCss (c.output names)

end Compiler

end UtilityCss
