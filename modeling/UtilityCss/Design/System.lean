import UtilityCss.Candidate.Parser
import UtilityCss.Utility.Builtin
import UtilityCss.Variant.Builtin
import UtilityCss.Variant.Order
import UtilityCss.Variant.Wrap

/-!
# Design systems

A design system is a theme with utilities and variants. It compiles a class name to nodes relative
to the element with the class, and orders compiled class names for the output: by their variants,
then by the place of the utility in the cascade, then by name.
-/

namespace UtilityCss

structure DesignSystem where
  theme : Theme
  utilities : Utilities
  variants : Variants

/-- A reading of a class name with the nodes that it stands for. -/
structure CompiledCandidate where
  candidate : Candidate
  nodes : List Node
  /-- The place of its utility in the cascade. -/
  order : Nat
  /-- Its variants, the last one in their order first. -/
  chain : List Variant
  deriving Repr

/-- The rule for the elements with the class. -/
def CompiledCandidate.rule (c : CompiledCandidate) : Node :=
  .rule ("." ++ escape c.candidate.raw) c.nodes

mutual

/-- Marks all declarations as important, apart from those that define a property. -/
def Node.markImportant : Node → Node
  | .decl property value _ => .decl property value true
  | .rule sel ns => .rule sel (markImportant ns)
  | .atRule name params ns =>
    if name == "property" then .atRule name params ns
    else .atRule name params (markImportant ns)
  | n => n

def markImportant : List Node → List Node
  | [] => []
  | n :: ns => n.markImportant :: markImportant ns

end

/-- Compares lists by their first items that are not equal, and a list that ends before the other
comes first. -/
def compareChains {α : Type} (cmp : α → α → Ordering) : List α → List α → Ordering
  | [], [] => .eq
  | [], _ :: _ => .lt
  | _ :: _, [] => .gt
  | a :: as, b :: bs => (cmp a b).then (compareChains cmp as bs)

/-- Sorts a list, in which equal items keep their order. -/
def sortBy {α : Type} (cmp : α → α → Ordering) (as : List α) : List α :=
  as.mergeSort fun a b => cmp a b != .gt

namespace DesignSystem

/-- The built-in design system for a theme. -/
def builtin (t : Theme) (dark : DarkMode) : DesignSystem :=
  ⟨t, Utilities.builtin, Variants.builtin t dark⟩

/-- All readings of a class name. -/
def candidates (d : DesignSystem) (raw : String) : List Candidate :=
  readCandidates d.utilities d.variants raw

/-- The nodes for a candidate without its variants and mark, and the place in the cascade. -/
def generate? (d : DesignSystem) (c : Candidate) : Option (List Node × Nat) :=
  match c.form with
  | .static root _ => d.utilities.generate? d.theme root .static c
  | .functional root _ _ _ => d.utilities.generate? d.theme root .functional c
  | .property name value none => some ([.plain name value], d.utilities.arbitraryOrder)
  | .property name value (some m) => do
    let alpha ← alphaOf? d.theme m
    return ([.plain name (withAlpha value alpha)], d.utilities.arbitraryOrder)

/-- Compiles one reading of a class name. -/
def compileReading? (d : DesignSystem) (c : Candidate) : Option CompiledCandidate := do
  let (ns, order) ← d.generate? c
  let ns := if c.important then markImportant ns else ns
  let nodes ← d.variants.wrapAll c.variants ns
  let chain := sortBy (fun a b => d.variants.compare b a) c.variants
  return { candidate := c, nodes, order, chain }

/-- Compiles the first reading of a class name that stands for something. -/
def compile? (d : DesignSystem) (raw : String) : Option CompiledCandidate :=
  (d.candidates raw).findSome? d.compileReading?

/-- The order of compiled class names in the output. -/
def compare (d : DesignSystem) (a b : CompiledCandidate) : Ordering :=
  ((compareChains d.variants.compare a.chain b.chain).then (Ord.compare a.order b.order)).then
    (Ord.compare a.candidate.raw b.candidate.raw)

/-- Sorts compiled class names for the output. -/
def sort (d : DesignSystem) (cs : List CompiledCandidate) : List CompiledCandidate :=
  sortBy d.compare cs

end DesignSystem

end UtilityCss
