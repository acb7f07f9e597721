import UtilityCss.CompileError
import UtilityCss.Color.Alpha
import UtilityCss.Text.Call
import UtilityCss.Text.Nesting
import UtilityCss.Theme.Lookup

/-!
# Theme functions

Four functions are evaluated in declarations and in the parameters of at-rules:

* `theme(colors.red.500 / 50%)` is the value, with a transparency if one is given;
* `--theme(--color-red-500)` is a reference to the variable, or its value behind ` inline`;
* `--spacing(4)` is a multiple of the spacing unit;
* `--alpha(red / 50%)` is a colour with a transparency.

The first two may have a fallback behind a comma, which is evaluated if the theme has no value.
-/

namespace UtilityCss

/-- The arguments `path / alpha, fallback`. -/
structure ThemeCall where
  path : String
  alpha : Option String
  fallback : Option String
  deriving DecidableEq, Repr

def ThemeCall.read (args : String) : ThemeCall :=
  let parts := segment args ','
  let front := Text.trim (parts.headD "")
  let fallback :=
    if parts.length > 1 then some (Text.trim (",".intercalate parts.tail)) else none
  match segment front '/' with
  | [path, alpha] => ⟨Text.trim path, some (Text.trim alpha), fallback⟩
  | _ => ⟨front, none, fallback⟩

/-- A colour with the transparency that a theme call gives. -/
def applyAlpha (color : String) (alpha : Option String) : Except CompileError String :=
  match alpha with
  | none => .ok color
  | some alpha => match normalizeAlpha alpha true with
    | some a => .ok (withAlpha color a)
    | none => .error (.invalidFunction (.badAlpha "theme" alpha))

/-- The fallback of a call named `function`, if it has one. -/
def evaluateFallback (evaluate : String → Except CompileError String) (function args : String)
    (fallback : Option String) : Except CompileError String :=
  match fallback with
  | some fallback => evaluate fallback
  | none => .error (.themeResolution (function ++ "(" ++ Text.trim args ++ ")"))

namespace Theme

variable (t : Theme) (evaluate : String → Except CompileError String)

/-- The value of `theme(args)`. -/
def evaluateTheme (args : String) : Except CompileError String :=
  let call := ThemeCall.read args
  match t.lookupPath ((Text.unquote? call.path).getD call.path) with
  | some e => applyAlpha e.value call.alpha
  | none => evaluateFallback evaluate "theme" args call.fallback

/-- The value of `--theme(args)`. -/
def evaluateVariable (args : String) : Except CompileError String :=
  let call := ThemeCall.read args
  let (key, inlined) := match Text.beforeTail? " inline" call.path with
    | some key => (Text.trim key, true)
    | none => (call.path, false)
  if !Text.startsWith key "--" then .error (.invalidFunction (.notVariable key))
  else match t.lookupPath key with
    | none => evaluateFallback evaluate "--theme" args call.fallback
    | some e =>
      let value :=
        if inlined || !e.emittable then e.value
        else match call.fallback with
          | some fallback => "var(" ++ e.key ++ ", " ++ fallback ++ ")"
          | none => "var(" ++ e.key ++ ")"
      applyAlpha value call.alpha

/-- The value of `--spacing(args)`. -/
def evaluateSpacing (args : String) : Except CompileError String :=
  let multiplier := Text.trim args
  if multiplier.isEmpty then .error (.invalidFunction .noMultiplier)
  else match t.get? "--spacing" with
    | some e => .ok ("calc(" ++ e.render ++ " * " ++ multiplier ++ ")")
    | none => .error (.themeResolution ("--spacing(" ++ multiplier ++ ")"))

end Theme

/-- The value of `--alpha(args)`. -/
def evaluateAlpha (args : String) : Except CompileError String :=
  match segment args '/' with
  | [color, alpha] => match normalizeAlpha alpha true with
    | some a => .ok (withAlpha (Text.trim color) a)
    | none => .error (.invalidFunction (.badAlpha "--alpha" (Text.trim alpha)))
  | _ => .error (.invalidFunction (.noColorAlpha (Text.trim args)))

/-- Writes the value of every call of one function. -/
def replaceCalls (name : String) (resolve : String → Except CompileError String)
    (value : String) : Except CompileError String :=
  let onChars (args : List Char) : Except CompileError (List Char) :=
    (resolve (String.ofList args)).map String.toList
  (Chars.replaceCalls name.toList onChars true value.toList).map String.ofList

namespace Theme

/-- Evaluates the calls in a value, with fallbacks inside fallbacks up to a depth. -/
def evaluateTo (t : Theme) : Nat → String → Except CompileError String
  | 0, value => .error (.themeResolution value)
  | depth + 1, value =>
    if !Text.containsChar value '(' then .ok value
    else do
      let value ← replaceCalls "theme" (t.evaluateTheme (t.evaluateTo depth)) value
      let value ← replaceCalls "--theme" (t.evaluateVariable (t.evaluateTo depth)) value
      let value ← replaceCalls "--spacing" t.evaluateSpacing value
      replaceCalls "--alpha" evaluateAlpha value

/-- A bound for fallbacks inside fallbacks: each stands in the value, or in a value of the theme
that has come in the place of a call. -/
def fallbackDepth (t : Theme) (value : String) : Nat :=
  t.entries.foldl (fun n e => n + e.value.length) (value.length + 1)

/-- Evaluates the calls in a value. -/
def evaluate (t : Theme) (value : String) : Except CompileError String :=
  t.evaluateTo (t.fallbackDepth value) value

end Theme

mutual

/-- The node with the calls evaluated in all declarations and parameters. -/
def Node.evaluate (t : Theme) : Node → Except CompileError Node
  | .rule sel ns => (evaluateEach t ns).map (.rule sel)
  | .atRule name params ns => do
    let params ← t.evaluate params
    let ns ← evaluateEach t ns
    return .atRule name params ns
  | .statement name params => (t.evaluate params).map (.statement name)
  | .decl property value important =>
    (t.evaluate value).map fun value => .decl property value important
  | .comment text => .ok (.comment text)

def evaluateEach (t : Theme) : List Node → Except CompileError (List Node)
  | [] => .ok []
  | n :: ns => do
    let n ← n.evaluate t
    let ns ← evaluateEach t ns
    return n :: ns

end

end UtilityCss
