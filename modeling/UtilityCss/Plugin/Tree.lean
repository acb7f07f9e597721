import UtilityCss.Stylesheet.Node

/-!
# Output written by plugins

A plugin writes declarations, nested rules and at-rules, and parts that depend on the value and the
modifier of the class name.
-/

namespace UtilityCss

inductive PluginTree where
  | decl (property value : String)
  /-- A nested rule, or an at-rule written as text. -/
  | branch (selector : String) (body : List PluginTree)
  | dynamic (parts : String → Option String → List PluginTree)

mutual

/-- The nodes for a value and a modifier. A text that is no at-rule in spite of its at-sign gives
none. -/
def PluginTree.resolve (value : String) (modifier : Option String) : PluginTree → List Node
  | .decl property text => [.plain property text]
  | .branch selector body =>
    let ns := resolveTrees value modifier body
    if Text.startsWith selector "@" then (Node.atRuleOf? selector ns).toList
    else [.rule selector ns]
  | .dynamic parts => resolveTrees value modifier (parts value modifier)

def resolveTrees (value : String) (modifier : Option String) : List PluginTree → List Node
  | [] => []
  | t :: ts => t.resolve value modifier ++ resolveTrees value modifier ts

end

end UtilityCss
