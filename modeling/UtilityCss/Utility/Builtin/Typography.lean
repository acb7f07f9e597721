import UtilityCss.Utility.Table

/-!
# Overflow and typography
-/

namespace UtilityCss

def overflowUtilities : UtilityTable :=
  (["overflow", "overflow-x", "overflow-y"].flatMap fun name =>
    family name name (themselves ["auto", "hidden", "clip", "visible", "scroll"])) ++
  (["", "-x", "-y"].flatMap fun axis =>
    family ("overscroll" ++ axis) ("overscroll-behavior" ++ axis)
      (themselves ["auto", "contain", "none"])) ++
  family "scroll" "scroll-behavior" (themselves ["auto", "smooth"]) ++
  [declares "truncate"
    [("overflow", "hidden"), ("text-overflow", "ellipsis"), ("white-space", "nowrap")]] ++
  family "text" "text-overflow" (themselves ["ellipsis", "clip"]) ++
  family "whitespace" "white-space"
    (themselves ["normal", "nowrap", "pre", "pre-line", "pre-wrap", "break-spaces"]) ++
  family "text" "text-wrap" (themselves ["wrap", "nowrap", "balance", "pretty"]) ++
  [declares "break-normal" [("overflow-wrap", "normal"), ("word-break", "normal")],
   declares "break-words" [("overflow-wrap", "break-word")],
   declares "break-all" [("word-break", "break-all")],
   declares "break-keep" [("word-break", "keep-all")]]

/-- A utility that sets a property and keeps the value in a variable for others to use. -/
def remembering (name slot property : String) (rule : ValueRule) : String × Recipe :=
  (name, .valued rule [.set slot, .set property, uninitialized slot])

def numericChain : String :=
  "var(--tw-ordinal,) var(--tw-slashed-zero,) var(--tw-numeric-figure,) " ++
    "var(--tw-numeric-spacing,) var(--tw-numeric-fraction,)"

/-- A variant of numerals, one of those that share a variable. -/
def numericVariant (name slot : String) : String × Recipe :=
  constant name
    ([.fixed slot name, .fixed "font-variant-numeric" numericChain] ++
      ["--tw-ordinal", "--tw-slashed-zero", "--tw-numeric-figure", "--tw-numeric-spacing",
       "--tw-numeric-fraction"].map uninitialized)

def numericUtilities : UtilityTable :=
  [declares "normal-nums" [("font-variant-numeric", "normal")],
   numericVariant "ordinal" "--tw-ordinal",
   numericVariant "slashed-zero" "--tw-slashed-zero",
   numericVariant "lining-nums" "--tw-numeric-figure",
   numericVariant "oldstyle-nums" "--tw-numeric-figure",
   numericVariant "proportional-nums" "--tw-numeric-spacing",
   numericVariant "tabular-nums" "--tw-numeric-spacing",
   numericVariant "diagonal-fractions" "--tw-numeric-fraction",
   numericVariant "stacked-fractions" "--tw-numeric-fraction"]

def decorationUtilities : UtilityTable :=
  family "" "text-decoration-line"
    [("underline", "underline"), ("overline", "overline"), ("line-through", "line-through"),
     ("no-underline", "none")] ++
  family "decoration" "text-decoration-style"
    (themselves ["solid", "double", "dotted", "dashed", "wavy"]) ++
  [colorSetter "decoration" "text-decoration-color" ["--text-decoration-color", "--color"]] ++
  setters
    { keywords := themselves ["auto", "from-font"]
      bare := .pixels
      types := [.length, .percentage] }
    [("decoration", ["text-decoration-thickness"])] ++
  setters { keywords := themselves ["auto"], bare := .pixels, negatable := true }
    [("underline-offset", ["text-underline-offset"])]

def typographyUtilities : UtilityTable :=
  family "text" "text-align"
    (themselves ["left", "center", "right", "justify", "start", "end"]) ++
  setters { spacingRule ["--text-indent", "--spacing"] with negatable := true }
    [("indent", ["text-indent"])] ++
  setters
    { keywords := themselves
        ["baseline", "top", "middle", "bottom", "text-top", "text-bottom", "sub", "super"] }
    [("align", ["vertical-align"])] ++
  setters { themeKeys := ["--font"], types := [.familyName, .genericName] }
    [("font", ["font-family"])] ++
  [remembering "font" "--tw-font-weight" "font-weight"
    { themeKeys := ["--font-weight"], bare := .fontWeight, types := [.number] }] ++
  numericUtilities ++
  [("text", .fontSize),
   colorSetter "text" "color" ["--text-color", "--color"],
   remembering "leading" "--tw-leading" "line-height"
    { themeKeys := ["--leading"], keywords := [("none", "1")], bare := .spacing },
   remembering "tracking" "--tw-tracking" "letter-spacing"
    { themeKeys := ["--tracking"], negatable := true }] ++
  family "" "text-transform"
    [("uppercase", "uppercase"), ("lowercase", "lowercase"), ("capitalize", "capitalize"),
     ("normal-case", "none")] ++
  family "" "font-style" [("italic", "italic"), ("not-italic", "normal")] ++
  decorationUtilities

end UtilityCss
