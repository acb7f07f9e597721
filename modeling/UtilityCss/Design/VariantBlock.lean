import UtilityCss.CompileError
import UtilityCss.Design.System
import UtilityCss.Stylesheet.Replace

/-!
# Variant blocks in rules

A block `@variant hover` inside a style rule stands for its body wrapped in the variant. What it
stands for is not searched for further blocks.
-/

namespace UtilityCss

namespace DesignSystem

/-- The body of a variant block wrapped in its variant. -/
def expandBlock (d : DesignSystem) (params : String) (body : List Node) :
    Except CompileError (List Node) :=
  let name := Text.trim params
  match (d.variants.read? name).bind (d.variants.wrap · body) with
  | some ns => .ok ns
  | none => .error (.unknownVariant name)

/-- Expands the variant blocks inside a style rule. -/
def expandInRule (d : DesignSystem) (ns : List Node) : Except CompileError (List Node) :=
  tryReplaceEach (fun
    | .atRule "variant" params body => (d.expandBlock params body).map some
    | _ => .ok none) ns

end DesignSystem

mutual

/-- Expands the variant blocks that are inside style rules. -/
def Node.expandVariants (d : DesignSystem) : Node → Except CompileError Node
  | .rule sel ns => (d.expandInRule ns).map (.rule sel)
  | .atRule name params ns => (expandVariants d ns).map (.atRule name params)
  | n => .ok n

def expandVariants (d : DesignSystem) : List Node → Except CompileError (List Node)
  | [] => .ok []
  | n :: ns => do
    let n ← n.expandVariants d
    let ns ← expandVariants d ns
    return n :: ns

end

end UtilityCss
