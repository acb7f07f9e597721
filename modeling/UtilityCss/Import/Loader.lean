import UtilityCss.Import.Basic
import UtilityCss.Import.Resolver
import UtilityCss.Plugin.Option
import UtilityCss.Stylesheet.Parser

/-!
# Loading

Before anything else, `load` puts the nodes of imported stylesheets in the place of the imports at
the top level, and collects the modules that the stylesheets name, in the order of the source. Only
so many imports may be inside each other, and none may import what is being imported.
-/

namespace UtilityCss

structure LoadedModule where
  module : Module
  options : PluginOptions := []

/-- What has been loaded: nodes, modules, and the names of the plugins that stylesheets name. -/
structure Loaded where
  nodes : List Node := []
  modules : List LoadedModule := []
  plugins : List String := []

def Loaded.append (a b : Loaded) : Loaded :=
  ⟨a.nodes ++ b.nodes, a.modules ++ b.modules, a.plugins ++ b.plugins⟩

/-- The quoted name in the parameters of a directive. -/
def readModuleName (kind : ModuleKind) (params : String) : Except CompileError String :=
  match Text.unquote? (Text.trim params) with
  | some name => .ok name
  | none => .error (.invalidDirective (.unquotedModule kind (Text.trim params)))

namespace Resolver

/-- The module of a name, and the place that it lies in. -/
def moduleOf (r : Resolver) (kind : ModuleKind) (name base : String) :
    Except CompileError (Module × String) :=
  (r.module kind name base).mapError fun e => .moduleFailed name (.unresolved e)

/-- Loads a configuration and the plugins that it names. -/
def loadConfig (r : Resolver) (params base : String) : Except CompileError Loaded := do
  let name ← readModuleName .config params
  match ← r.moduleOf .config name base with
  | (.plugin _, _) => .error (.moduleFailed name .notConfig)
  | (.config c, place) =>
    let plugins ← c.plugins.mapM fun plugin => r.moduleOf .plugin plugin place
    return { modules := ⟨.config c, []⟩ :: plugins.map fun (m, _) => ⟨m, []⟩ }

/-- Loads a plugin with the options in its block. -/
def loadPlugin (r : Resolver) (params : String) (body : List Node) (base : String) :
    Except CompileError Loaded := do
  let name ← readModuleName .plugin params
  let options ← readOptions name body
  match ← r.moduleOf .plugin name base with
  | (.config _, _) => .error (.moduleFailed name .notPlugin)
  | (.plugin p, _) => return { modules := [⟨.plugin p, options⟩], plugins := [name] }

/-- Loads what a node at the top level asks for; `load` loads the stylesheet of an import. -/
def loadNode (r : Resolver) (base : String) (load : Import → Except CompileError Loaded) :
    Node → Except CompileError Loaded
  | .statement "import" params => match Import.read? params with
    | some i => (load i).map fun loaded => { loaded with nodes := i.wrap loaded.nodes }
    | none => .ok { nodes := [.statement "import" params] }
  | .statement "config" params => r.loadConfig params base
  | .statement "plugin" params => r.loadPlugin params [] base
  | .atRule "plugin" params body => r.loadPlugin params body base
  | n => .ok { nodes := [n] }

def loadNodes (r : Resolver) (base : String) (load : Import → Except CompileError Loaded)
    (ns : List Node) : Except CompileError Loaded :=
  (ns.mapM (r.loadNode base load)).map fun parts => parts.foldl Loaded.append {}

/-- How many imports may be inside each other. -/
def importLimit : Nat := 50

/-- The nodes of an imported stylesheet, the place of the names in it, and the key that tells that
it is being imported, in front of the keys of the imports around. -/
def openImport (r : Resolver) (base : String) (chain : List String) (i : Import) :
    Except CompileError (List Node × String × List String) := do
  let (text, place) ← (r.stylesheet i.name base).mapError fun e =>
    .importFailed i.name (.unresolved e)
  let key := place ++ "\n" ++ text
  if chain.contains key then .error (.importFailed i.name .circular)
  else
    let ns ← (parse text).mapError .css
    return (ns, place, key :: chain)

/-- Loads what nodes ask for, where imports may be `depth` times inside each other. -/
def loadWithin (r : Resolver) : Nat → String → List String → List Node → Except CompileError Loaded
  | 0, base, _, ns =>
    r.loadNodes base (fun i => .error (.importFailed i.name (.tooDeep importLimit))) ns
  | depth + 1, base, chain, ns =>
    r.loadNodes base (fun i => do
      let (inner, place, chain) ← r.openImport base chain i
      r.loadWithin depth place chain inner) ns

/-- Loads all that the nodes of a stylesheet ask for. -/
def load (r : Resolver) (base : String) (ns : List Node) : Except CompileError Loaded :=
  r.loadWithin importLimit base [] ns

end Resolver

end UtilityCss
