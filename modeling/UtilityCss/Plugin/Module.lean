import UtilityCss.Config.Basic
import UtilityCss.Design.System

/-!
# Modules

A stylesheet names modules to load: configurations, and plugins, which extend the design system and
may bring a configuration of their own.
-/

namespace UtilityCss

/-- The options that a stylesheet gives a plugin, by name. -/
abbrev PluginOptions := List (String × JsonValue)

structure Plugin where
  register : PluginOptions → DesignSystem → Except CompileError DesignSystem
  config : Option Config := none

/-- What the name of a module stands for. -/
inductive Module where
  | plugin (p : Plugin)
  | config (c : Config)

/-- The configuration that a module is or brings. -/
def Module.config? : Module → Option Config
  | plugin p => p.config
  | config c => some c

end UtilityCss
