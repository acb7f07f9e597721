import UtilityCss.Plugin.Module

/-!
# Resolvers

A compile reaches other stylesheets and modules by a resolver only. It is asked for a name, and for
the place that the name is relative to.
-/

namespace UtilityCss

structure Resolver where
  /-- The text of a stylesheet, and the place that the names in it are relative to. -/
  stylesheet : (name base : String) → Except ResolveError (String × String)
  module : (kind : ModuleKind) → (name base : String) → Except ResolveError (Module × String)

namespace Resolver

/-- Refuses all requests. -/
def refusing : Resolver where
  stylesheet name _ := .error (.unsupported name)
  module _ name _ := .error (.unsupported name)

/-- Knows stylesheets and modules by name, wherever they are asked for. -/
def ofTables (stylesheets : List (String × String)) (modules : List (String × Module)) :
    Resolver where
  stylesheet name base := match stylesheets.lookup name with
    | some text => .ok (text, base)
    | none => .error (.notFound name)
  module _ name base := match modules.lookup name with
    | some m => .ok (m, base)
    | none => .error (.notFound name)

end Resolver

end UtilityCss
