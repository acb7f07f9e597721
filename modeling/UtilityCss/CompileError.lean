import UtilityCss.Stylesheet.SyntaxError

/-!
# Faults of a compile
-/

namespace UtilityCss

/-- Why a resolver does not deliver a stylesheet or a module. -/
inductive ResolveError where
  | unsupported (id : String)
  | notFound (id : String)
  /-- A configuration is no valid JSON or does not have the form of one. -/
  | invalidConfig (id : String)
  | unreadable (path : String)
  deriving DecidableEq, Repr

def ResolveError.message : ResolveError → String
  | unsupported id => "no resolver configured for `" ++ id ++ "`"
  | notFound id => "`" ++ id ++ "` not found"
  | invalidConfig id => "`" ++ id ++ "` is not a configuration"
  | unreadable path => path ++ ": cannot be read"

inductive ImportFault where
  | tooDeep (limit : Nat)
  | circular
  | unresolved (e : ResolveError)
  deriving DecidableEq, Repr

def ImportFault.message : ImportFault → String
  | tooDeep limit => "exceeded the maximum import depth of " ++ toString limit
  | circular => "circular import"
  | unresolved e => e.message

inductive ModuleFault where
  | notConfig
  | notPlugin
  | unresolved (e : ResolveError)
  deriving DecidableEq, Repr

def ModuleFault.message : ModuleFault → String
  | notConfig => "expected a configuration"
  | notPlugin => "expected a plugin"
  | unresolved e => e.message

/-- What is wrong with a call of a function that is evaluated while compiling. -/
inductive FunctionFault where
  | badAlpha (function alpha : String)
  | notVariable (key : String)
  | noMultiplier
  | noColorAlpha (args : String)
  deriving DecidableEq, Repr

namespace FunctionFault

def function : FunctionFault → String
  | badAlpha f _ => f
  | notVariable _ => "--theme"
  | noMultiplier => "--spacing"
  | noColorAlpha _ => "--alpha"

def message : FunctionFault → String
  | badAlpha _ alpha => "`" ++ alpha ++ "` is not a valid alpha value"
  | notVariable key => "`" ++ key ++ "` must be a CSS variable name"
  | noMultiplier => "expected a multiplier"
  | noColorAlpha args => "expected `color / alpha`, found `" ++ args ++ "`"

end FunctionFault

inductive ModuleKind where
  | config
  | plugin
  deriving DecidableEq, Repr

def ModuleKind.name : ModuleKind → String
  | config => "config"
  | plugin => "plugin"

/-- What is wrong with a directive of the stylesheet or of a module. -/
inductive DirectiveFault where
  | darkMode (strategy : String)
  | unquotedModule (kind : ModuleKind) (params : String)
  | pluginOption (id found : String)
  | classSelector (selector : String)
  | variantName (name : String)
  | variantWithoutSlot (name : String)
  | variantWithoutBody (name : String)
  | variantWithoutSelector (name : String)
  | variantWithBoth (name : String)
  | utilityName (name : String)
  | utilityWithoutBody (name : String)
  deriving DecidableEq, Repr

namespace DirectiveFault

def directive : DirectiveFault → String
  | darkMode _ => "config"
  | unquotedModule kind _ => kind.name
  | pluginOption _ _ | classSelector _ => "plugin"
  | variantName _ | variantWithoutSlot _ | variantWithoutBody _ | variantWithoutSelector _
  | variantWithBoth _ => "variant"
  | utilityName _ | utilityWithoutBody _ => "utility"

def message : DirectiveFault → String
  | darkMode strategy => "unknown `darkMode` strategy `" ++ strategy ++ "`"
  | unquotedModule _ params => "expected a quoted module id, found `" ++ params ++ "`"
  | pluginOption id found =>
    "options for `" ++ id ++ "` may only contain declarations, found: " ++ found
  | classSelector selector => "`" ++ selector ++ "` is not a class selector"
  | variantName name => "`" ++ name ++ "` is not a valid variant name"
  | variantWithoutSlot name => "`" ++ name ++ "` must contain `@slot`"
  | variantWithoutBody name => "`" ++ name ++ "` needs a selector list or a body"
  | variantWithoutSelector name => "`" ++ name ++ "` has an empty selector list"
  | variantWithBoth name => "`" ++ name ++ "` cannot have both a selector list and a body"
  | utilityName name => "`" ++ name ++ "` is not a valid utility name"
  | utilityWithoutBody name => "`" ++ name ++ "` needs a body"

end DirectiveFault

inductive CompileError where
  | css (e : SyntaxError)
  /-- A theme block holds something other than custom properties and keyframes. -/
  | invalidTheme (found : String)
  /-- A reference block holds something other than theme blocks. -/
  | invalidReferenceMedia (found : String)
  | unknownUtility (name : String)
  | unknownVariant (name : String)
  /-- A call names no value of the theme and has no fallback. -/
  | themeResolution (call : String)
  | invalidFunction (fault : FunctionFault)
  | invalidDirective (fault : DirectiveFault)
  | importFailed (id : String) (fault : ImportFault)
  | moduleFailed (id : String) (fault : ModuleFault)
  deriving DecidableEq, Repr

def CompileError.message : CompileError → String
  | css e => e.message
  | invalidTheme found =>
    "`@theme` blocks may only contain custom properties or `@keyframes`, found: " ++ found
  | invalidReferenceMedia found =>
    "`@media reference` may only contain `@theme` blocks, found: " ++ found
  | unknownUtility name => "cannot apply unknown utility class `" ++ name ++ "`"
  | unknownVariant name => "cannot apply unknown variant `" ++ name ++ "`"
  | themeResolution call => "could not resolve value for theme function: `" ++ call ++ "`"
  | invalidFunction fault => "invalid `" ++ fault.function ++ "()` call: " ++ fault.message
  | invalidDirective fault => "invalid `@" ++ fault.directive ++ "` declaration: " ++ fault.message
  | importFailed id fault => "failed to import `" ++ id ++ "`: " ++ fault.message
  | moduleFailed id fault => "failed to load module `" ++ id ++ "`: " ++ fault.message

end UtilityCss
