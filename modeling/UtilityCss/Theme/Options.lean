import UtilityCss.Text.Blank

/-!
# Options of theme blocks
-/

namespace UtilityCss

structure ThemeOptions where
  /-- Utilities write the value itself and not a reference to the variable. -/
  isInline : Bool := false
  /-- The value may be used, but the variable is never declared in the output. -/
  isReference : Bool := false
  /-- The value does not override one that is no default. -/
  isDefault : Bool := false
  /-- The variable is declared even if nothing reads it. -/
  isStatic : Bool := false
  deriving DecidableEq, Repr

namespace ThemeOptions

/-- The options of either. -/
def union (a b : ThemeOptions) : ThemeOptions :=
  ⟨a.isInline || b.isInline, a.isReference || b.isReference, a.isDefault || b.isDefault,
   a.isStatic || b.isStatic⟩

/-- Reads the words behind `@theme`; unknown words are ignored. -/
def read (params : String) : ThemeOptions :=
  let words := Text.words params
  ⟨words.contains "inline", words.contains "reference", words.contains "default",
   words.contains "static"⟩

def words (o : ThemeOptions) : List String :=
  (if o.isInline then ["inline"] else []) ++ (if o.isReference then ["reference"] else []) ++
    (if o.isDefault then ["default"] else []) ++ (if o.isStatic then ["static"] else [])

end ThemeOptions

end UtilityCss
