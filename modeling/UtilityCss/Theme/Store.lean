import UtilityCss.Theme.Event

/-!
# Building a theme

`Theme.ofEvents` folds events into a table in which each key stands once, in the order in which the
keys were first set. A default does not override a value that is none, and an entry stays emittable
once it is. Keyframes whose animation was unset go with it, unless an animation that is left names
them.
-/

namespace UtilityCss

structure Theme where
  entries : List ThemeEntry := []
  keyframes : List ThemeKeyframes := []
  deriving Repr, Inhabited

/-- Whether a key belongs to an animation, whose value may name keyframes. -/
def isAnimationKey (key : String) : Bool := Text.startsWith key "--animate"

/-- Whether a name is one of the words of a value, between blanks and commas. -/
def mentionsName (value name : String) : Bool :=
  (Text.splitBy (fun c => isBlank c || c == ',') value).contains name

/-- Whether unsetting a namespace removes a key. -/
def inNamespace (name key : String) : Bool := key == name || Text.startsWith key (name ++ "-")

/-- Overrides an entry of the same key, unless a default meets a value that is none. -/
def ThemeEntry.override (e : ThemeEntry) (value : String) (options : ThemeOptions) : ThemeEntry :=
  if options.isDefault && !e.options.isDefault then e
  else { e with value, options, emittable := e.emittable || !options.isReference }

/-- Sets a key: in its place if it is in the table, or else at the end. -/
def setEntry (key value : String) (options : ThemeOptions) : List ThemeEntry → List ThemeEntry
  | [] => [⟨key, value, options, !options.isReference⟩]
  | e :: es => if e.key == key then e.override value options :: es
    else e :: setEntry key value options es

/-- A theme that is being built, with the values of the animations that were unset. -/
structure ThemeDraft where
  theme : Theme := {}
  unset : List String := []

namespace ThemeDraft

/-- Removes the keys that satisfy `p`. -/
def remove (d : ThemeDraft) (p : String → Bool) : ThemeDraft :=
  let gone := d.theme.entries.filter fun e => p e.key
  { theme := { d.theme with entries := d.theme.entries.filter fun e => !p e.key }
    unset := d.unset ++ (gone.filter fun e => isAnimationKey e.key).map (·.value) }

def step (d : ThemeDraft) : ThemeEvent → ThemeDraft
  | .set key value options =>
    if value == "initial" then d.remove (· == key)
    else { d with theme := { d.theme with entries := setEntry key value options d.theme.entries } }
  | .unsetNamespace name => d.remove (inNamespace name)
  | .unsetAll => d.remove fun _ => true
  | .keyframes k =>
    let others := d.theme.keyframes.filter (·.name != k.name)
    { d with theme := { d.theme with keyframes := others ++ [k] } }

/-- Whether keyframes stay: none of the unset animations named them, or one that is left does. -/
def keeps (d : ThemeDraft) (k : ThemeKeyframes) : Bool :=
  !d.unset.any (mentionsName · k.name) ||
    (d.theme.entries.filter fun e => isAnimationKey e.key).any (mentionsName ·.value k.name)

def finish (d : ThemeDraft) : Theme :=
  { d.theme with keyframes := d.theme.keyframes.filter d.keeps }

end ThemeDraft

/-- The theme that a list of events builds. -/
def Theme.ofEvents (events : List ThemeEvent) : Theme :=
  (events.foldl ThemeDraft.step {}).finish

end UtilityCss
