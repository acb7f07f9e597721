import UtilityCss.CompileError
import UtilityCss.Stylesheet.Printer
import UtilityCss.Theme.Event

/-!
# Theme blocks

The theme is taken out of the `@theme` blocks at the top level of a stylesheet and inside grouping
at-rules. A mark stays where the first block was; there the variables are declared in the output.
All blocks inside `@media reference` are references. Options can be given for all blocks that are
found; in a whole stylesheet there are none.
-/

namespace UtilityCss

/-- The at-rules in which theme blocks are looked for. -/
def isGrouping (name : String) : Bool := ["layer", "media", "supports", "container"].contains name

def isReferenceMedia (name params : String) : Bool :=
  name == "media" && Text.trim params == "reference"

/-- The text of a node for an error message. -/
def Node.excerpt (n : Node) : String := Text.trim (toCss [n])

/-- What a node in a theme block says. -/
def Node.themeEvents (options : ThemeOptions) (n : Node) : Except CompileError (List ThemeEvent) :=
  match n with
  | .decl property value _ =>
    if Text.startsWith property "--" then .ok [.ofDeclaration property value options]
    else .error (.invalidTheme n.excerpt)
  | .atRule "keyframes" params _ | .statement "keyframes" params =>
    .ok [.keyframes ⟨Text.trim params, n, options⟩]
  | .comment _ => .ok []
  | _ => .error (.invalidTheme n.excerpt)

/-- What the body of a theme block says. -/
def blockEvents (options : ThemeOptions) (body : List Node) :
    Except CompileError (List ThemeEvent) :=
  (body.mapM (Node.themeEvents options)).map List.flatten

/-- What a node inside `@media reference` says, where only theme blocks may stand. -/
def Node.referenceEvents (inherited : ThemeOptions) : Node → Except CompileError (List ThemeEvent)
  | .atRule "theme" params body =>
    blockEvents (((ThemeOptions.read params).union inherited).union { isReference := true }) body
  | .comment _ => .ok []
  | n => .error (.invalidReferenceMedia n.excerpt)

/-- The mark for the place of the theme. -/
def themeMark : Node := .statement "theme" ""

def Node.isThemeMark : Node → Bool
  | .statement name _ => name == "theme"
  | _ => false

/-- What has been found in nodes: the nodes without theme blocks, the events of the blocks, and
whether there was a block up to here. -/
structure ThemeScan where
  nodes : List Node
  events : List ThemeEvent
  met : Bool
  deriving Repr

/-- What is found in a theme block; `met` says whether there was a block before. -/
def ThemeScan.ofBlock (met : Bool) (events : List ThemeEvent) : ThemeScan :=
  ⟨if met then [] else [themeMark], events, true⟩

mutual

def Node.scanThemeWith (inherited : ThemeOptions) (met : Bool) :
    Node → Except CompileError ThemeScan
  | .atRule name params body =>
    if name == "theme" then
      (blockEvents ((ThemeOptions.read params).union inherited) body).map (ThemeScan.ofBlock met)
    else if isReferenceMedia name params then
      (body.mapM (Node.referenceEvents inherited)).map fun events => .ofBlock met events.flatten
    else if isGrouping name then
      (scanThemesWith inherited met body).map fun s =>
        { s with nodes := [.atRule name params s.nodes] }
    else .ok ⟨[.atRule name params body], [], met⟩
  | n => .ok ⟨[n], [], met⟩

/-- Takes the theme blocks out of nodes. Their options are joined with inherited ones. -/
def scanThemesWith (inherited : ThemeOptions) (met : Bool) :
    List Node → Except CompileError ThemeScan
  | [] => .ok ⟨[], [], met⟩
  | n :: ns => do
    let front ← n.scanThemeWith inherited met
    let rest ← scanThemesWith inherited front.met ns
    return ⟨front.nodes ++ rest.nodes, front.events ++ rest.events, rest.met⟩

end

/-- Takes the theme blocks out of the nodes of a stylesheet. -/
def scanThemes (met : Bool) (ns : List Node) : Except CompileError ThemeScan :=
  scanThemesWith {} met ns

end UtilityCss
