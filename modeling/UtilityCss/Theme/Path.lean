import UtilityCss.Text.Find

/-!
# Paths to theme values

A value may be named by a path through a configuration, such as `colors.red.500` or
`colors[red][500]`. The first segment names a namespace, some by another name than their custom
properties have, and the property's name joins the segments with dashes: `--color-red-500`.
-/

namespace UtilityCss

namespace Chars

/-- Drops the characters that satisfy `p` at both ends. -/
def strip (p : Char → Bool) (s : List Char) : List Char :=
  ((s.dropWhile p).reverse.dropWhile p).reverse

/-- A segment without quotes around it. -/
def stripQuotes (s : List Char) : List Char := strip (fun c => c == '"' || c == '\'') s

/-- Puts a segment, read last character first, in front of others unless it is empty. -/
def addSegment (current : List Char) (segments : List (List Char)) : List (List Char) :=
  if current.isEmpty then segments else current.reverse :: segments

/-- The segments of a path from the middle of one: `inBrackets` tells of which kind it is, and
`current` is what has been read of it, last character first. An open bracket has to be closed. -/
def pathSegments : Bool → List Char → List Char → Option (List (List Char))
  | false, current, [] => some (addSegment current [])
  | false, current, '.' :: s => (pathSegments false [] s).map (addSegment current)
  | false, current, '[' :: s => (pathSegments true [] s).map (addSegment current)
  | false, current, c :: s => pathSegments false (c :: current) s
  | true, _, [] => none
  | true, current, ']' :: s => (pathSegments false [] s).map (stripQuotes current.reverse :: ·)
  | true, current, c :: s => pathSegments true (c :: current) s

/-- Writes `fontSize` as `font-size`: a dash before every capital that follows a small letter or a
digit. -/
def kebab (afterSmall : Bool) : List Char → List Char
  | [] => []
  | c :: s =>
    let small := c.isLower || c.isDigit
    if c.isUpper && afterSmall then '-' :: c.toLower :: kebab small s else c :: kebab small s

end Chars

def kebab (s : String) : String := String.ofList (Chars.kebab false s.toList)

/-- The segments of a path; none for a path without any. -/
def keyPath (path : String) : Option (List String) :=
  match Chars.pathSegments false [] path.toList with
  | some (s :: ss) => some ((s :: ss).map String.ofList)
  | _ => none

/-- The names of namespaces in configurations, with those in custom properties where they differ. -/
def namespaceNames : List (String × String) :=
  [("animation", "animate"), ("aspectRatio", "aspect"), ("borderRadius", "radius"),
   ("boxShadow", "shadow"), ("colors", "color"), ("containers", "container"),
   ("fontFamily", "font"), ("fontSize", "text"), ("letterSpacing", "tracking"),
   ("lineHeight", "leading"), ("maxWidth", "container"), ("screens", "breakpoint"),
   ("transitionTimingFunction", "ease")]

def namespaceName (s : String) : String := (namespaceNames.lookup s).getD s

/-- The segments without a last one that is `DEFAULT`. -/
def dropDefault (segments : List String) : List String :=
  if segments.getLast? == some "DEFAULT" then segments.dropLast else segments

/-- The custom property that a path names. Only the first segment may be empty. -/
def keyPathToProperty : List String → Option String
  | [] => none
  | first :: rest =>
    let rest := dropDefault rest
    if rest.any (·.isEmpty) then none
    else some ("--" ++ "-".intercalate ((namespaceName first :: rest).map kebab))

end UtilityCss
