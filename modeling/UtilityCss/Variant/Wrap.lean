import UtilityCss.Variant.Registry

/-!
# Applying variants
-/

namespace UtilityCss

mutual

/-- Puts `body` into the node wherever a block in it is empty. -/
def Node.fill (body : List Node) : Node → Node
  | .rule selector ns => .rule selector (if ns.isEmpty then body else fillEach body ns)
  | .atRule name params ns => .atRule name params (if ns.isEmpty then body else fillEach body ns)
  | n => n

def fillEach (body : List Node) : List Node → List Node
  | [] => []
  | n :: ns => n.fill body :: fillEach body ns

end

namespace Variants

/-- Wraps nodes as a variant does, which stands inside the compound variant `parent`. A relative
selector makes sense in `has` only, and `not` cannot negate several wrappers at once. -/
def wrapWithin (vs : Variants) (parent : Option String) : Variant → List Node → Option (List Node)
  | .arbitrary selector relative, ns =>
    if relative && parent != some "has" then none
    else if Text.startsWith selector "@" then (Node.atRuleOf? selector ns).map ([·])
    else some [.rule selector ns]
  | .compound root modifier inner, ns => do
    let e ← vs.get? root
    let wrapped ← wrapWithin vs (some root) inner []
    if root == "not" && wrapped.length > 1 then none
    else return fillEach ns (← wrapped.mapM (e.rule.change modifier))
  | .static root, ns => do (← vs.get? root).rule.wrap vs.theme none none ns
  | .functional root value modifier, ns => do
    (← vs.get? root).rule.wrap vs.theme value modifier ns

/-- Wraps nodes as a variant does. -/
def wrap (vs : Variants) (v : Variant) (ns : List Node) : Option (List Node) :=
  vs.wrapWithin none v ns

/-- Wraps nodes in several variants, the first one outermost. -/
def wrapAll (vs : Variants) (chain : List Variant) (ns : List Node) : Option (List Node) :=
  chain.reverse.foldlM (fun ns v => vs.wrap v ns) ns

end Variants

end UtilityCss
