import UtilityCss.Stylesheet.Token

/-!
# Reading of stylesheets

`assemble` builds the tree from the tokens. It keeps a stack of the open blocks, each with the nodes
in front of it, last first. A text that ends inside a block is refused in the name of the innermost
one, and a closing brace outside any block at its place.
-/

namespace UtilityCss

/-- Builds the nodes from tokens: `opened` are the open blocks, innermost first, each with the nodes
in front of it, and `done` the nodes of the innermost block so far, last first. -/
def assemble (fault : Option SyntaxError) :
    List (BlockHead × List Node) → List Node → List Token → Except SyntaxError (List Node)
  | opened, done, [] => match fault, opened with
    | some e, _ => .error e
    | none, [] => .ok done.reverse
    | none, (head, _) :: _ => .error (.unclosedBlock head.context)
  | opened, done, .leaf n :: ts => assemble fault opened (n :: done) ts
  | opened, done, .openBlock head :: ts => assemble fault ((head, done) :: opened) [] ts
  | (head, outer) :: opened, done, .closeBlock _ :: ts =>
    assemble fault opened (head.node done.reverse :: outer) ts
  | [], _, .closeBlock near :: _ => .error (.unexpectedClose near)

/-- Reads a stylesheet. -/
def parse (text : String) : Except SyntaxError (List Node) :=
  let (ts, fault) := tokens text.toList
  assemble fault [] [] ts

end UtilityCss
