import UtilityCss.Text.Blank
import UtilityCss.Text.Find

/-!
# Stylesheet trees

A stylesheet is a list of nodes: style rules, at-rules with a block, at-rules that are a mere
statement, declarations and comments. Selectors, parameters and values are kept as text.

`visited` lists the nodes of a forest in document order, and `replaceEach` splices lists of nodes
in the place of chosen ones.
-/

namespace UtilityCss

inductive Node where
  | rule (selector : String) (nodes : List Node)
  | atRule (name params : String) (nodes : List Node)
  | statement (name params : String)
  | decl (property value : String) (important : Bool)
  | comment (text : String)
  deriving Inhabited, Repr

namespace Node

/-- The nodes directly inside; none for a node without a block. -/
def children : Node → List Node
  | rule _ ns => ns
  | atRule _ _ ns => ns
  | _ => []

/-- The node with other children; a node without a block stays as it is. -/
def withChildren : Node → List Node → Node
  | rule sel _, ns => rule sel ns
  | atRule name params _, ns => atRule name params ns
  | n, _ => n

/-- The name of an at-rule, with or without a block. -/
def atName? : Node → Option String
  | atRule name _ _ => some name
  | statement name _ => some name
  | _ => none

def isAt (name : String) (n : Node) : Bool := n.atName? == some name

def isDecl : Node → Bool
  | decl _ _ _ => true
  | _ => false

def isComment : Node → Bool
  | comment _ => true
  | _ => false

/-- A declaration without the important mark. -/
def plain (property value : String) : Node := decl property value false

/-- Name and parameters of an at-rule written as text, such as `@media (width >= 40rem)`. -/
def atHead? (text : String) : Option (String × String) :=
  match Chars.trim text.toList with
  | '@' :: s =>
    let name := s.takeWhile fun c => !isBlank c && c != '('
    if name.isEmpty then none
    else some (String.ofList name, String.ofList (Chars.trim (s.drop name.length)))
  | _ => none

/-- The at-rule that a text such as `@media (width >= 40rem)` names, around the given nodes. -/
def atRuleOf? (text : String) (nodes : List Node) : Option Node :=
  (atHead? text).map fun (name, params) => atRule name params nodes

end Node

mutual

/-- The node and everything inside it in document order; what is inside a node that `enter`
refuses is left out. -/
def Node.visited (enter : Node → Bool) : Node → List Node
  | .rule sel ns => .rule sel ns :: if enter (.rule sel ns) then visited enter ns else []
  | .atRule name params ns =>
    .atRule name params ns :: if enter (.atRule name params ns) then visited enter ns else []
  | n => [n]

def visited (enter : Node → Bool) : List Node → List Node
  | [] => []
  | n :: ns => n.visited enter ++ visited enter ns

end

/-- All nodes of a forest in document order. -/
def allNodes (ns : List Node) : List Node := visited (fun _ => true) ns

mutual

/-- The nodes that stand in the place of a node: those that `f` gives, or else the node with
`replaceEach f` applied inside. -/
def Node.replace (f : Node → Option (List Node)) : Node → List Node
  | .rule sel ns => (f (.rule sel ns)).getD [.rule sel (replaceEach f ns)]
  | .atRule name params ns =>
    (f (.atRule name params ns)).getD [.atRule name params (replaceEach f ns)]
  | n => (f n).getD [n]

/-- Splices the list that `f` gives in the place of every outermost node for which it gives one.
Nodes of such a list are not looked at again. -/
def replaceEach (f : Node → Option (List Node)) : List Node → List Node
  | [] => []
  | n :: ns => n.replace f ++ replaceEach f ns

end

end UtilityCss
