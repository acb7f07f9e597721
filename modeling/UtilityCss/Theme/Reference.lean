import UtilityCss.Text.Numeric
import UtilityCss.Theme.Store

/-!
# Theme variables in use

`varReferences` finds the variables that a text reads through `var()`. From those that the nodes of
a stylesheet read, and the static ones, `Theme.reached` follows the values of the theme, and
`Theme.entriesUsed` lists what of it is to be declared.
-/

namespace UtilityCss

namespace Chars

/-- The name at the start of a text. A backslash takes the next character with it, and `escaped`
says that one stands in front. -/
def takeName (escaped : Bool) : List Char → List Char
  | [] => []
  | c :: s => if isNameChar c || c == '\\' || escaped then c :: takeName (c == '\\') s else []

/-- The variable that a text behind `var(` begins with. -/
def variableName? (s : List Char) : Option (List Char) :=
  let s := trimStart s
  if "--".toList.isPrefixOf s then some (takeName false s) else none

def varReferences : List Char → List (List Char)
  | [] => []
  | c :: s => match "var(".toList.isPrefixOf? (c :: s) with
    | some rest => (variableName? rest).toList ++ varReferences s
    | none => varReferences s

end Chars

/-- The names of the variables that a text reads. -/
def varReferences (value : String) : List String :=
  (Chars.varReferences value.toList).map String.ofList

/-- The variables that a node reads, apart from what is inside it. -/
def Node.references : Node → List String
  | .decl property value _ =>
    varReferences value ++ if Text.startsWith property "--" then varReferences property else []
  | .atRule _ params _ => varReferences params
  | .statement _ params => varReferences params
  | .rule selector _ => varReferences selector
  | .comment _ => []

namespace Theme

/-- The keys among those of `entries` that are reached from the names in `pending` by following the
values of entries. -/
def reached (entries : List ThemeEntry) : List String → List String
  | [] => []
  | name :: pending =>
    match h : entries.find? (·.key == name) with
    | none => reached entries pending
    | some e =>
      have : (entries.filter (·.key != name)).length < entries.length := by
        have he := List.find?_some h
        refine List.length_filter_lt_length_iff_exists.2 ⟨e, List.mem_of_find?_eq_some h, ?_⟩
        simpa using he
      name :: reached (entries.filter (·.key != name)) (varReferences e.value ++ pending)
termination_by pending => (entries.length, pending.length)

/-- The keys to be declared for the nodes of a stylesheet, in the order of the theme. -/
def entriesUsed (t : Theme) (ns : List Node) : List String :=
  let read := (allNodes ns).flatMap Node.references
  let static := (t.entries.filter (·.options.isStatic)).map (·.key)
  let keys := reached t.entries (read ++ static)
  (t.entries.filter fun e => e.emittable && keys.contains e.key).map (·.key)

end Theme

end UtilityCss
