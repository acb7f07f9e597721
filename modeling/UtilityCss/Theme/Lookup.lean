import UtilityCss.Text.Escape
import UtilityCss.Theme.Path
import UtilityCss.Theme.Store

/-!
# Looking up theme values

Class names look for a value in a list of namespaces, the first that has it winning. Functions and
plugins look for a path.
-/

namespace UtilityCss

/-- The part of a key that a value is written as, with a backslash before every ASCII character
that may not stand in a custom property's name. -/
def escapeKeySegment (value : String) : String :=
  String.ofList (value.toList.flatMap fun c => if Chars.isIdentifierChar c then [c] else ['\\', c])

namespace Theme

def get? (t : Theme) (key : String) : Option ThemeEntry := t.entries.find? (·.key == key)

/-- The entry for a value in a namespace, or for the namespace itself. A dot in the value may be
escaped in the key, stand as it is, or be an underscore. -/
def lookup (t : Theme) (name : String) (value : Option String) : Option ThemeEntry :=
  match value with
  | none => t.get? name
  | some value =>
    if value.isEmpty || Text.containsPhrase value "--" then none
    else t.get? (name ++ "-" ++ escapeKeySegment value) <|> t.get? (name ++ "-" ++ value) <|>
      if Text.containsChar value '.' then t.get? (name ++ "-" ++ Text.replaceChar '.' "_" value)
      else none

/-- The entry for a value in the first namespace that has one. -/
def lookupIn (t : Theme) (value : Option String) (names : List String) : Option ThemeEntry :=
  names.findSome? (t.lookup · value)

/-- A value as a utility writes it. -/
def resolve (t : Theme) (value : Option String) (names : List String) : Option String :=
  (t.lookupIn value names).map (·.render)

/-- A value as it is. -/
def resolveValue (t : Theme) (value : Option String) (names : List String) : Option String :=
  (t.lookupIn value names).map (·.value)

/-- A value with those nested in it, such as the line height of a font size: each suffix whose key
is in the theme, with its value as a utility writes it. -/
def resolveWith (t : Theme) (value : String) (names nested : List String) :
    Option (String × List (String × String)) :=
  (t.lookupIn (some value) names).map fun e =>
    (e.render, nested.filterMap fun suffix =>
      (t.get? (e.key ++ suffix)).map fun inner => (suffix, inner.render))

/-- The values of a namespace, without those nested in others. -/
def members (t : Theme) (name : String) : List (String × ThemeEntry) :=
  t.entries.filterMap fun e => do
    let suffix ← Text.afterLead? (name ++ "-") e.key
    if suffix.isEmpty || Text.containsPhrase suffix "--" then none
    else some (unescape suffix, e)

/-- The entry of a namespace itself or of its default. -/
def lookupDefault (t : Theme) (name : String) : Option ThemeEntry :=
  t.get? ("--" ++ name) <|> t.get? ("--default-" ++ name)

/-- A key with its dots escaped. -/
def escapeDots (key : String) : String := Text.replaceChar '.' "\\." key

/-- A key without pairs of dashes in front. -/
def bareName : List Char → List Char
  | '-' :: '-' :: s => bareName s
  | s => s

/-- The entry for a path, which may be the key itself. -/
def lookupPath (t : Theme) (path : String) : Option ThemeEntry :=
  let path := Text.trim path
  if Text.startsWith path "--" then t.get? path <|> t.get? (escapeDots path)
  else do
    let key ← keyPathToProperty (← keyPath path)
    t.get? key <|> t.get? (escapeDots key) <|> t.get? (Text.replaceChar '.' "_" key) <|>
      t.lookupDefault (String.ofList (bareName key.toList))

end Theme

end UtilityCss
