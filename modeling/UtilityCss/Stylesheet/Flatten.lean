import UtilityCss.Stylesheet.Node
import UtilityCss.Stylesheet.Selector

/-!
# Flattening of nested rules

`flatten` turns a nested stylesheet into one whose style rules hold only declarations and comments.
The declarations and comments of a rule form one rule, in front of what is nested in it.
Conditional at-rules move above the rules around them; all other at-rules pass as they are.
-/

namespace UtilityCss

/-- The at-rules that group style rules under a condition. -/
def isConditional (name : String) : Bool :=
  ["media", "supports", "container", "layer", "starting-style", "scope", "document"].contains name

/-- A declaration or a comment: what a flat style rule may hold. -/
def Node.isLocal (n : Node) : Bool := n.isDecl || n.isComment

/-- The rule that the declarations and comments directly inside the given parents form, if there
are any. -/
def localRule (parents : Option (List String)) (ns : List Node) : List Node :=
  match parents with
  | none => []
  | some ps =>
    let locals := ns.filter Node.isLocal
    if locals.isEmpty then [] else [.rule (", ".intercalate ps) locals]

mutual

/-- What a node inside the given parents becomes, apart from declarations and comments there. -/
def Node.flatten (parents : Option (List String)) : Node → List Node
  | .rule sel ns =>
    let parents := some (combineSelectors parents sel)
    localRule parents ns ++ flattenEach parents ns
  | .atRule name params ns =>
    if isConditional name then
      [.atRule name params (localRule parents ns ++ flattenEach parents ns)]
    else [.atRule name params ns]
  | n => if parents.isSome && n.isLocal then [] else [n]

def flattenEach (parents : Option (List String)) : List Node → List Node
  | [] => []
  | n :: ns => n.flatten parents ++ flattenEach parents ns

end

def flatten (ns : List Node) : List Node := flattenEach none ns

end UtilityCss
