import UtilityCss.Design.System
import UtilityCss.CompileError
import UtilityCss.Text.Numeric

/-!
# Extension of design systems

What plugins can do to a design system: they look up values of the theme and add utilities and
variants.
-/

namespace UtilityCss

namespace Chars

/-- The name at the start of a text behind the dot of a class selector, still escaped, and the
rest. -/
def cutClassName : List Char → List Char × List Char
  | [] => ([], [])
  | ['\\'] => (['\\'], [])
  | '\\' :: c :: s =>
    let (name, rest) := cutClassName s
    ('\\' :: c :: name, rest)
  | c :: s =>
    if isNameChar c then
      let (name, rest) := cutClassName s
      (c :: name, rest)
    else ([], c :: s)

end Chars

/-- The class that a selector begins with, and what follows it. -/
def readClassSelector (selector : String) : Except CompileError (String × String) :=
  let (name, rest) := Chars.cutClassName ((Text.afterLead? "." (Text.trim selector)).getD "").toList
  if name.isEmpty then .error (.invalidDirective (.classSelector selector))
  else .ok (String.ofList (Chars.unescape name), String.ofList rest)

namespace DesignSystem

/-- The value of the theme that a path names. -/
def themeValue? (d : DesignSystem) (path : String) : Option String :=
  (d.theme.lookupPath path).map (·.value)

/-- The values of a namespace of the theme, which may be named without its dashes. -/
def themeValues (d : DesignSystem) (name : String) : List (String × String) :=
  (d.theme.members (if Text.startsWith name "--" then name else "--" ++ name)).map
    fun (key, e) => (key, e.render)

/-- Adds a utility that is written as a class selector. What follows the class in the selector
becomes a rule around the nodes. -/
def addUtility (d : DesignSystem) (selector : String) (trees : List PluginTree) :
    Except CompileError DesignSystem := do
  let (name, rest) ← readClassSelector selector
  let ns := resolveTrees "" none trees
  let ns := if rest.isEmpty then ns else [.rule ("&" ++ rest) ns]
  return { d with utilities := d.utilities.add name (.fixed ns) }

/-- Adds utilities that are written as class selectors. -/
def addUtilities (d : DesignSystem) (utilities : List (String × List PluginTree)) :
    Except CompileError DesignSystem :=
  utilities.foldlM (fun d (selector, trees) => d.addUtility selector trees) d

/-- Adds a utility with values. -/
def matchUtilities (d : DesignSystem) (name : String) (rule : MatchRule) (trees : List PluginTree) :
    DesignSystem :=
  { d with utilities := d.utilities.add name (.matched rule trees) }

/-- Adds a variant, or changes one that is there. -/
def addVariant (d : DesignSystem) (name : String) (rule : VariantRule) : DesignSystem :=
  { d with variants := d.variants.register name rule }

end DesignSystem

end UtilityCss
