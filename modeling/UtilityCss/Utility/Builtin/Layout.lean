import UtilityCss.Utility.Table

/-!
# Layout, placement and size
-/

namespace UtilityCss

def insets : List (String × List String) :=
  [("inset", ["inset"]), ("inset-x", ["left", "right"]), ("inset-y", ["top", "bottom"]),
   ("start", ["inset-inline-start"]), ("end", ["inset-inline-end"]), ("top", ["top"]),
   ("right", ["right"]), ("bottom", ["bottom"]), ("left", ["left"])]

def margins : List (String × List String) :=
  [("m", ["margin"]), ("mx", ["margin-left", "margin-right"]),
   ("my", ["margin-top", "margin-bottom"]), ("ms", ["margin-inline-start"]),
   ("me", ["margin-inline-end"]), ("mt", ["margin-top"]), ("mr", ["margin-right"]),
   ("mb", ["margin-bottom"]), ("ml", ["margin-left"])]

def widthKeywords : List (String × String) :=
  [("auto", "auto"), ("full", "100%"), ("screen", "100vw"), ("svw", "100svw"), ("lvw", "100lvw"),
   ("dvw", "100dvw"), ("min", "min-content"), ("max", "max-content"), ("fit", "fit-content"),
   ("px", "1px")]

def maxWidthKeywords : List (String × String) :=
  [("none", "none"), ("full", "100%"), ("screen", "100vw"), ("min", "min-content"),
   ("max", "max-content"), ("fit", "fit-content"), ("px", "1px")]

def heightKeywords : List (String × String) :=
  [("auto", "auto"), ("full", "100%"), ("screen", "100vh"), ("svh", "100svh"), ("lvh", "100lvh"),
   ("dvh", "100dvh"), ("lh", "1lh"), ("min", "min-content"), ("max", "max-content"),
   ("fit", "fit-content"), ("px", "1px")]

def maxHeightKeywords : List (String × String) :=
  [("none", "none"), ("full", "100%"), ("screen", "100vh"), ("lh", "1lh"), ("min", "min-content"),
   ("max", "max-content"), ("fit", "fit-content"), ("px", "1px")]

def sizeKeywords : List (String × String) :=
  [("auto", "auto"), ("full", "100%"), ("min", "min-content"), ("max", "max-content"),
   ("fit", "fit-content"), ("px", "1px")]

def layoutUtilities : UtilityTable :=
  [declares "sr-only"
     [("position", "absolute"), ("width", "1px"), ("height", "1px"), ("padding", "0"),
      ("margin", "-1px"), ("overflow", "hidden"), ("clip", "rect(0, 0, 0, 0)"),
      ("white-space", "nowrap"), ("border-width", "0")],
   declares "not-sr-only"
     [("position", "static"), ("width", "auto"), ("height", "auto"), ("padding", "0"),
      ("margin", "0"), ("overflow", "visible"), ("clip", "auto"), ("white-space", "normal")]] ++
  family "pointer-events" "pointer-events" (themselves ["none", "auto"]) ++
  family "" "visibility"
    [("visible", "visible"), ("invisible", "hidden"), ("collapse", "collapse")] ++
  family "" "position" (themselves ["static", "fixed", "absolute", "relative", "sticky"])

/-- The utilities that place an item on one axis of a grid. -/
def gridAxisUtilities (axis property : String) : UtilityTable :=
  let edgeRule : ValueRule :=
    { keywords := [("auto", "auto")], bare := .integer, negatable := true }
  [declares (axis ++ "-auto") [(property, "auto")],
   (axis, .valued { themeKeys := ["--" ++ property], bare := .integer } (setAll [property])),
   declares (axis ++ "-span-full") [(property, "1 / -1")],
   (axis ++ "-span",
     .valued { bare := .integer } [.decl property ["span ", " / span ", ""]]),
   (axis ++ "-start", .valued edgeRule (setAll [property ++ "-start"])),
   (axis ++ "-end", .valued edgeRule (setAll [property ++ "-end"]))]

def placementUtilities : UtilityTable :=
  setters
    { themeKeys := ["--inset", "--spacing"]
      keywords := [("auto", "auto"), ("full", "100%"), ("px", "1px")]
      bare := .spacing
      negatable := true
      fractions := true }
    insets ++
  [declares "isolate" [("isolation", "isolate")],
   declares "isolation-auto" [("isolation", "auto")]] ++
  setters
    { themeKeys := ["--z-index"]
      keywords := [("auto", "auto")]
      bare := .integer
      negatable := true }
    [("z", ["z-index"])] ++
  setters
    { themeKeys := ["--order"]
      keywords := [("first", "calc(-infinity)"), ("last", "calc(infinity)"), ("none", "0")]
      bare := .integer
      negatable := true }
    [("order", ["order"])] ++
  gridAxisUtilities "col" "grid-column" ++
  gridAxisUtilities "row" "grid-row" ++
  family "float" "float"
    [("start", "inline-start"), ("end", "inline-end"), ("right", "right"), ("left", "left"),
     ("none", "none")] ++
  family "clear" "clear"
    [("start", "inline-start"), ("end", "inline-end"), ("right", "right"), ("left", "left"),
     ("both", "both"), ("none", "none")] ++
  setters
    { themeKeys := ["--margin", "--spacing"]
      keywords := [("auto", "auto"), ("px", "1px")]
      bare := .spacing
      negatable := true }
    margins

def displays : List String :=
  ["block", "inline-block", "inline", "flex", "inline-flex", "table", "inline-table",
   "table-caption", "table-cell", "table-column", "table-column-group", "table-footer-group",
   "table-header-group", "table-row-group", "table-row", "flow-root", "grid", "inline-grid",
   "contents", "list-item"]

/-- The rule of a size: its namespaces and keywords, multiples of the spacing unit, fractions. -/
def sizeRule (keys : List String) (keywords : List (String × String)) : ValueRule :=
  { themeKeys := keys, keywords, bare := .spacing, fractions := true }

def sizeUtilities : UtilityTable :=
  setters (sizeRule ["--size", "--spacing"] sizeKeywords) [("size", ["width", "height"])] ++
  setters (sizeRule ["--width", "--spacing", "--container"] widthKeywords) [("w", ["width"])] ++
  setters (sizeRule ["--min-width", "--spacing", "--container"] widthKeywords)
    [("min-w", ["min-width"])] ++
  setters (sizeRule ["--max-width", "--spacing", "--container"] maxWidthKeywords)
    [("max-w", ["max-width"])] ++
  setters (sizeRule ["--height", "--spacing"] heightKeywords) [("h", ["height"])] ++
  setters (sizeRule ["--min-height", "--spacing"] heightKeywords) [("min-h", ["min-height"])] ++
  setters (sizeRule ["--max-height", "--spacing"] maxHeightKeywords) [("max-h", ["max-height"])]

def boxUtilities : UtilityTable :=
  family "box" "box-sizing" [("border", "border-box"), ("content", "content-box")] ++
  [declares "line-clamp-none"
     [("overflow", "visible"), ("display", "block"), ("-webkit-box-orient", "horizontal"),
      ("-webkit-line-clamp", "unset")],
   ("line-clamp", .valued { themeKeys := ["--line-clamp"], bare := .integer }
     [.fixed "overflow" "hidden", .fixed "display" "-webkit-box",
      .fixed "-webkit-box-orient" "vertical", .set "-webkit-line-clamp"])] ++
  family "" "display" (themselves displays) ++
  [declares "hidden" [("display", "none")], ("aspect", .aspectRatio)] ++
  sizeUtilities

end UtilityCss
