import UtilityCss.Utility.Table

/-!
# Flexible boxes, tables and grids, and alignment in them
-/

namespace UtilityCss

/-- A utility that sets the spacing of borders on some axes. -/
def borderSpacing (name : String) (axes : List String) : String × Recipe :=
  (name, .valued (spacingRule ["--border-spacing", "--spacing"])
    (setAll (axes.map ("--tw-border-spacing-" ++ ·)) ++
      [.fixed "border-spacing" "var(--tw-border-spacing-x) var(--tw-border-spacing-y)",
       .property "--tw-border-spacing-x" { initial := some "0", grammar := "\"<length>\"" },
       .property "--tw-border-spacing-y" { initial := some "0", grammar := "\"<length>\"" }]))

def flexUtilities : UtilityTable :=
  setters
    { keywords := [("auto", "auto"), ("initial", "0 auto"), ("none", "none")]
      bare := .integer
      fractions := true }
    [("flex", ["flex"])] ++
  setters { defaultValue := some "1", bare := .integer }
    [("shrink", ["flex-shrink"]), ("grow", ["flex-grow"])] ++
  setters
    { themeKeys := ["--flex-basis", "--spacing", "--container"]
      keywords := [("auto", "auto"), ("full", "100%"), ("px", "1px")]
      bare := .spacing
      fractions := true }
    [("basis", ["flex-basis"])] ++
  family "table" "table-layout" (themselves ["auto", "fixed"]) ++
  family "caption" "caption-side" (themselves ["top", "bottom"]) ++
  family "border" "border-collapse" (themselves ["collapse", "separate"]) ++
  [borderSpacing "border-spacing" ["x", "y"], borderSpacing "border-spacing-x" ["x"],
   borderSpacing "border-spacing-y" ["y"]]

def trackKeywords : List (String × String) :=
  [("auto", "auto"), ("min", "min-content"), ("max", "max-content"), ("fr", "minmax(0, 1fr)")]

/-- Sets a property of a grid that has a namespace of its own in the theme. -/
def gridSetter (name property : String) (rule : ValueRule) : String × Recipe :=
  (name, .valued { rule with themeKeys := ["--" ++ property] } (setAll [property]))

def gridUtilities : UtilityTable :=
  family "grid-flow" "grid-auto-flow"
    [("row", "row"), ("col", "column"), ("dense", "dense"), ("row-dense", "row dense"),
     ("col-dense", "column dense")] ++
  [gridSetter "auto-cols" "grid-auto-columns" { keywords := trackKeywords },
   gridSetter "auto-rows" "grid-auto-rows" { keywords := trackKeywords },
   gridSetter "grid-cols" "grid-template-columns"
     { keywords := themselves ["none", "subgrid"], bare := .tracks },
   gridSetter "grid-rows" "grid-template-rows"
     { keywords := themselves ["none", "subgrid"], bare := .tracks }]

/-- The utilities that set the space between the children of an element on one axis. -/
def spaceUtilities (axis start finish : String) : UtilityTable :=
  let reverse := "--tw-space-" ++ axis ++ "-reverse"
  let children := ":where(& > :not(:last-child))"
  [("space-" ++ axis,
     .valued { spacingRule ["--space", "--spacing"] with negatable := true }
       [.rule children
         [.fixed reverse "0",
          .decl start ["calc(", " * var(" ++ reverse ++ "))"],
          .decl finish ["calc(", " * calc(1 - var(" ++ reverse ++ ")))"]],
        initialized reverse "0"]),
   constant ("space-" ++ axis ++ "-reverse")
     [.rule children [.fixed reverse "1"], initialized reverse "0"]]

def alignmentUtilities : UtilityTable :=
  family "flex" "flex-direction"
    [("row", "row"), ("row-reverse", "row-reverse"), ("col", "column"),
     ("col-reverse", "column-reverse")] ++
  family "flex" "flex-wrap" (themselves ["wrap", "wrap-reverse", "nowrap"]) ++
  family "place-content" "place-content"
    [("center", "center"), ("start", "start"), ("end", "end"), ("between", "space-between"),
     ("around", "space-around"), ("evenly", "space-evenly"), ("baseline", "baseline"),
     ("stretch", "stretch")] ++
  family "place-items" "place-items"
    (themselves ["start", "end", "center", "baseline", "stretch"]) ++
  family "content" "align-content"
    [("normal", "normal"), ("center", "center"), ("start", "flex-start"), ("end", "flex-end"),
     ("between", "space-between"), ("around", "space-around"), ("evenly", "space-evenly"),
     ("baseline", "baseline"), ("stretch", "stretch")] ++
  family "items" "align-items"
    [("start", "flex-start"), ("end", "flex-end"), ("center", "center"),
     ("baseline", "baseline"), ("stretch", "stretch")] ++
  family "justify" "justify-content"
    [("normal", "normal"), ("start", "flex-start"), ("end", "flex-end"), ("center", "center"),
     ("between", "space-between"), ("around", "space-around"), ("evenly", "space-evenly"),
     ("stretch", "stretch")] ++
  family "justify-items" "justify-items"
    (themselves ["normal", "start", "end", "center", "stretch"]) ++
  setters (spacingRule ["--gap", "--spacing"])
    [("gap", ["gap"]), ("gap-x", ["column-gap"]), ("gap-y", ["row-gap"])] ++
  spaceUtilities "x" "margin-inline-start" "margin-inline-end" ++
  spaceUtilities "y" "margin-block-start" "margin-block-end" ++
  family "place-self" "place-self" (themselves ["auto", "start", "end", "center", "stretch"]) ++
  family "self" "align-self"
    [("auto", "auto"), ("start", "flex-start"), ("end", "flex-end"), ("center", "center"),
     ("stretch", "stretch"), ("baseline", "baseline")] ++
  family "justify-self" "justify-self"
    (themselves ["auto", "start", "end", "center", "stretch"])

end UtilityCss
