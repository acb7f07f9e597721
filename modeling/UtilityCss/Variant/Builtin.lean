import UtilityCss.Variant.Registry

/-!
# The built-in variants

They are registered in the order of the cascade: pseudo-elements, positions in the tree, states,
compounds, attributes, breakpoints, containers and media.
-/

namespace UtilityCss

/-- How the `dark` variant is told. -/
inductive DarkMode where
  /-- By the preference of the user. -/
  | media
  /-- By an element around or at the utility that matches a selector. -/
  | selector (selector : String)
  /-- By selectors and at-rules of any kind. -/
  | variant (selectors : List String)
  deriving DecidableEq, Repr

def DarkMode.selectors : DarkMode → List String
  | media => ["@media (prefers-color-scheme: dark)"]
  | selector s => ["&:where(" ++ s ++ ", " ++ s ++ " *)"]
  | variant list => list

/-- Variants that wrap a utility in one selector or at-rule each. -/
def oneSelector (list : List (String × String)) : List (String × VariantRule) :=
  list.map fun (name, selector) => (name, .selectors [selector])

def pseudoElementVariants : List (String × VariantRule) :=
  [("first-letter", .selectors ["&::first-letter"]),
   ("first-line", .selectors ["&::first-line"]),
   ("marker", .selectors ["& *::marker", "&::marker"]),
   ("selection", .selectors ["& *::selection", "&::selection"]),
   ("file", .selectors ["&::file-selector-button"]),
   ("placeholder", .selectors ["&::placeholder"]),
   ("backdrop", .selectors ["&::backdrop"]),
   ("before", .content "&::before"),
   ("after", .content "&::after")]

def structureVariants : List (String × VariantRule) :=
  ("*", .directChildren) :: oneSelector
    [("first", "&:first-child"), ("last", "&:last-child"), ("only", "&:only-child"),
     ("odd", "&:nth-child(odd)"), ("even", "&:nth-child(even)"),
     ("first-of-type", "&:first-of-type"), ("last-of-type", "&:last-of-type"),
     ("only-of-type", "&:only-of-type"), ("empty", "&:empty")]

def stateVariants : List (String × VariantRule) :=
  oneSelector
    [("visited", "&:visited"), ("target", "&:target"),
     ("open", "&:is([open], :popover-open, :open)"), ("default", "&:default"),
     ("checked", "&:checked"), ("indeterminate", "&:indeterminate"),
     ("placeholder-shown", "&:placeholder-shown"), ("autofill", "&:autofill"),
     ("optional", "&:optional"), ("required", "&:required"), ("valid", "&:valid"),
     ("invalid", "&:invalid"), ("in-range", "&:in-range"), ("out-of-range", "&:out-of-range"),
     ("read-only", "&:read-only"), ("focus-within", "&:focus-within"), ("hover", "&:hover"),
     ("focus", "&:focus"), ("focus-visible", "&:focus-visible"), ("active", "&:active"),
     ("enabled", "&:enabled"), ("disabled", "&:disabled"),
     ("inert", "&:is([inert], [inert] *)")]

def compoundVariants : List (String × VariantRule) :=
  [("not", .negation), ("group", .marker "group" " *"), ("peer", .marker "peer" " ~ *"),
   ("has", .has), ("in", .within)]

def attributeVariants : List (String × VariantRule) :=
  [("aria", .aria), ("data", .data), ("nth", .nth "nth-child"),
   ("nth-last", .nth "nth-last-child"), ("nth-of-type", .nth "nth-of-type"),
   ("nth-last-of-type", .nth "nth-last-of-type"), ("supports", .supports)]

/-- The breakpoints of a theme by name, and the variants for any width. -/
def breakpointVariants (t : Theme) : List (String × VariantRule) :=
  (t.members "--breakpoint").map (fun (name, e) =>
      (name, .block "media" ("(width >= " ++ e.value ++ ")"))) ++
    [("min", .breakpoint ">="), ("max", .breakpoint "<")]

def containerVariants : List (String × VariantRule) :=
  [("@", .container ">="), ("@min", .container ">="), ("@max", .container "<")]

def mediaVariants (dark : DarkMode) : List (String × VariantRule) :=
  oneSelector
    [("motion-safe", "@media (prefers-reduced-motion: no-preference)"),
     ("motion-reduce", "@media (prefers-reduced-motion: reduce)"),
     ("contrast-more", "@media (prefers-contrast: more)"),
     ("contrast-less", "@media (prefers-contrast: less)"),
     ("portrait", "@media (orientation: portrait)"),
     ("landscape", "@media (orientation: landscape)"),
     ("ltr", "&:where(:dir(ltr), [dir=\"ltr\"], [dir=\"ltr\"] *)"),
     ("rtl", "&:where(:dir(rtl), [dir=\"rtl\"], [dir=\"rtl\"] *)")] ++
    [("dark", .selectors dark.selectors)] ++
    oneSelector
      [("starting", "@starting-style"), ("print", "@media print"),
       ("forced-colors", "@media (forced-colors: active)")]

namespace Variants

/-- The built-in variants for a theme. -/
def builtin (t : Theme) (dark : DarkMode) : Variants :=
  let vs : Variants := { theme := t }
  let vs := vs.registerAll pseudoElementVariants
  let vs := vs.registerAll structureVariants
  let vs := vs.registerAll stateVariants
  let vs := vs.registerAll compoundVariants
  let vs := vs.registerAll attributeVariants
  let vs := vs.registerGroup ⟨"--breakpoint", ["", "min", "max"]⟩ (breakpointVariants t)
  let vs := vs.registerGroup ⟨"--container", ["@", "@min", "@max"]⟩ containerVariants
  vs.registerAll (mediaVariants dark)

end Variants

end UtilityCss
