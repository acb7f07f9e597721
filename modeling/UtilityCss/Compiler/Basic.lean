import UtilityCss.Config.Theme
import UtilityCss.Design.Declaration
import UtilityCss.Import.Loader
import UtilityCss.Theme.Block
import UtilityCss.Theme.Function

/-!
# Compiling

`compile` turns a stylesheet into a compiler: it loads what the stylesheet names, builds the theme
and the design system, and expands whatever does not depend on the class names in use.
-/

namespace UtilityCss

/-- A stylesheet that only lacks the rules for the class names in use. -/
structure Compiler where
  system : DesignSystem
  nodes : List Node
  /-- The names of the plugins that the stylesheets name, in the order of the source. -/
  plugins : List String

/-- Whether a node marks the place of the rules for class names. -/
def Node.isUtilitiesMark : Node → Bool
  | .statement name params => name == "tailwind" && Text.trim params == "utilities"
  | _ => false

/-- The events of the theme of a configuration, and the dark mode after it. -/
def Config.contribute (contribution : List ThemeEvent × DarkMode) (c : Config) :
    Except CompileError (List ThemeEvent × DarkMode) := do
  let mode ← c.mode?
  return (contribution.1 ++ c.themeEvents, mode.getD contribution.2)

namespace Compiler

/-- The events and the dark mode that modules contribute, in their order. -/
def moduleSettings (modules : List LoadedModule) :
    Except CompileError (List ThemeEvent × DarkMode) :=
  (modules.filterMap (·.module.config?)).foldlM Config.contribute ([], .media)

/-- Extends a design system by the plugins among modules, in their order. -/
def registerPlugins (d : DesignSystem) (modules : List LoadedModule) :
    Except CompileError DesignSystem :=
  modules.foldlM (fun d m => match m.module with
    | .plugin p => p.register m.options d
    | .config _ => .ok d) d

/-- Expands variant blocks, applied class names and functions. -/
def expand (d : DesignSystem) (ns : List Node) : Except CompileError (List Node) := do
  let ns ← expandVariants d ns
  let ns ← d.applyEach ns
  evaluateEach d.theme ns

/-- The compiler for what has been loaded. -/
def ofLoaded (loaded : Loaded) : Except CompileError Compiler := do
  let scan ← scanThemes false loaded.nodes
  let (events, dark) ← moduleSettings loaded.modules
  let system := DesignSystem.builtin (Theme.ofEvents (scan.events ++ events)) dark
  let system ← system.declareVariants scan.nodes
  let system ← registerPlugins system loaded.modules
  let ns := scan.nodes.filter (·.variantDeclaration?.isNone)
  let system ← system.declareUtilities ns
  let ns := ns.filter (·.utilityDeclaration?.isNone)
  let ns ← expand system ns
  return { system, nodes := keepFirst Node.isUtilitiesMark ns, plugins := loaded.plugins }

end Compiler

/-- Compiles a stylesheet. The names in it are relative to `base`. -/
def compile (css base : String) (r : Resolver) : Except CompileError Compiler := do
  let ns ← (parse css).mapError .css
  let loaded ← r.load base ns
  Compiler.ofLoaded loaded

end UtilityCss
