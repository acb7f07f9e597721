import UtilityCss.Stylesheet.Node

/-!
# Printing of stylesheet trees

Two spaces of indentation a level and one declaration a line. A rule or a block in which nothing
would be printed is left out; an empty `@layer` block is kept, since it fixes the order of layers.
-/

namespace UtilityCss

mutual

/-- Whether printing the node writes anything. -/
def Node.hasContent : Node → Bool
  | .rule _ ns => anyContent ns
  | .atRule name _ ns => anyContent ns || name == "layer"
  | _ => true

def anyContent : List Node → Bool
  | [] => false
  | n :: ns => n.hasContent || anyContent ns

end

def indent (depth : Nat) : String := String.ofList (List.replicate (2 * depth) ' ')

/-- What follows `@` in an at-rule, up to its block or semicolon. -/
def atHeadText (name params : String) : String :=
  if params.isEmpty then name else name ++ " " ++ params

mutual

def Node.print (depth : Nat) : Node → String
  | .decl property value important =>
    indent depth ++ property ++ ": " ++ value ++ (if important then " !important" else "") ++ ";\n"
  | .comment text => indent depth ++ "/*" ++ text ++ "*/\n"
  | .rule sel ns =>
    if anyContent ns then
      indent depth ++ sel ++ " \x7b\n" ++ printEach (depth + 1) ns ++ indent depth ++ "\x7d\n"
    else ""
  | .atRule name params ns =>
    if anyContent ns || name == "layer" then
      indent depth ++ "@" ++ atHeadText name params ++ " \x7b\n" ++ printEach (depth + 1) ns ++
        indent depth ++ "\x7d\n"
    else ""
  | .statement name params => indent depth ++ "@" ++ atHeadText name params ++ ";\n"

def printEach (depth : Nat) : List Node → String
  | [] => ""
  | n :: ns => n.print depth ++ printEach depth ns

end

/-- The text of a stylesheet. -/
def toCss (ns : List Node) : String := printEach 0 ns

end UtilityCss
