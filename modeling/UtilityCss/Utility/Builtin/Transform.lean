import UtilityCss.Utility.Table

/-!
# Transforms and interaction
-/

namespace UtilityCss

def transformChain : String :=
  "var(--tw-rotate-x,) var(--tw-rotate-y,) var(--tw-rotate-z,) var(--tw-skew-x,) " ++
    "var(--tw-skew-y,)"

def transformProperties : List Template :=
  ["--tw-rotate-x", "--tw-rotate-y", "--tw-rotate-z", "--tw-skew-x", "--tw-skew-y"].map
    uninitialized

/-- A utility that moves an element along some axes. -/
def translation (name : String) (axes : List String) : String × Recipe :=
  (name, .valued
    { themeKeys := ["--translate", "--spacing"]
      keywords := [("full", "100%"), ("px", "1px")]
      bare := .spacing
      negatable := true
      fractions := true }
    (setAll (axes.map ("--tw-translate-" ++ ·)) ++
      [.fixed "translate" "var(--tw-translate-x) var(--tw-translate-y)"] ++
      ["x", "y", "z"].map fun axis => initialized ("--tw-translate-" ++ axis) "0"))

/-- A utility that scales an element along some axes. -/
def scaling (name : String) (axes : List String) : String × Recipe :=
  (name, .valued { themeKeys := ["--scale"], bare := .percent, negatable := true }
    (setAll (axes.map ("--tw-scale-" ++ ·)) ++
      [.fixed "scale" "var(--tw-scale-x) var(--tw-scale-y)"] ++
      ["x", "y", "z"].map fun axis => initialized ("--tw-scale-" ++ axis) "1"))

/-- A utility that skews an element along some axes, each with the name of its function. -/
def skewing (name : String) (axes : List (String × String)) : String × Recipe :=
  (name, .valued { themeKeys := ["--skew"], bare := .degrees, negatable := true }
    ((axes.map fun (axis, function) => .decl ("--tw-skew-" ++ axis) [function ++ "(", ")"]) ++
      [.fixed "transform" transformChain] ++ transformProperties))

def transformUtilities : UtilityTable :=
  setters
    { themeKeys := ["--transform-origin"]
      keywords :=
        [("center", "center"), ("top", "top"), ("top-right", "top right"), ("right", "right"),
         ("bottom-right", "bottom right"), ("bottom", "bottom"), ("bottom-left", "bottom left"),
         ("left", "left"), ("top-left", "top left")] }
    [("origin", ["transform-origin"])] ++
  [declares "translate-none" [("translate", "none")],
   translation "translate" ["x", "y"], translation "translate-x" ["x"],
   translation "translate-y" ["y"],
   declares "scale-none" [("scale", "none")],
   scaling "scale" ["x", "y", "z"], scaling "scale-x" ["x"], scaling "scale-y" ["y"],
   declares "rotate-none" [("rotate", "none")]] ++
  setters { themeKeys := ["--rotate"], bare := .degrees, negatable := true }
    [("rotate", ["rotate"])] ++
  [skewing "skew" [("x", "skewX"), ("y", "skewY")], skewing "skew-x" [("x", "skewX")],
   skewing "skew-y" [("y", "skewY")],
   constant "transform" (.fixed "transform" transformChain :: transformProperties),
   constant "transform-gpu"
     (.fixed "transform" ("translateZ(0) " ++ transformChain) :: transformProperties),
   constant "transform-cpu" (.fixed "transform" transformChain :: transformProperties),
   declares "transform-none" [("transform", "none")]]

def scrollMargins : List (String × List String) :=
  [("scroll-m", ["scroll-margin"]), ("scroll-mx", ["scroll-margin-inline"]),
   ("scroll-my", ["scroll-margin-block"]), ("scroll-ms", ["scroll-margin-inline-start"]),
   ("scroll-me", ["scroll-margin-inline-end"]), ("scroll-mt", ["scroll-margin-top"]),
   ("scroll-mr", ["scroll-margin-right"]), ("scroll-mb", ["scroll-margin-bottom"]),
   ("scroll-ml", ["scroll-margin-left"])]

def scrollPaddings : List (String × List String) :=
  [("scroll-p", ["scroll-padding"]), ("scroll-px", ["scroll-padding-inline"]),
   ("scroll-py", ["scroll-padding-block"]), ("scroll-ps", ["scroll-padding-inline-start"]),
   ("scroll-pe", ["scroll-padding-inline-end"]), ("scroll-pt", ["scroll-padding-top"]),
   ("scroll-pr", ["scroll-padding-right"]), ("scroll-pb", ["scroll-padding-bottom"]),
   ("scroll-pl", ["scroll-padding-left"])]

/-- How strictly scrolling snaps, unless a utility says otherwise. -/
def snapStrictness : Template := initialized "--tw-scroll-snap-strictness" "proximity"

def snapUtilities : UtilityTable :=
  declares "snap-none" [("scroll-snap-type", "none")] ::
  (["x", "y", "both"].map fun axis => constant ("snap-" ++ axis)
    [.fixed "scroll-snap-type" (axis ++ " var(--tw-scroll-snap-strictness)"), snapStrictness]) ++
  (["mandatory", "proximity"].map fun strictness => constant ("snap-" ++ strictness)
    [.fixed "--tw-scroll-snap-strictness" strictness, snapStrictness]) ++
  family "snap" "scroll-snap-align"
    [("align-none", "none"), ("start", "start"), ("end", "end"), ("center", "center")] ++
  family "snap" "scroll-snap-stop" (themselves ["normal", "always"])

def interactionUtilities : UtilityTable :=
  setters { themeKeys := ["--cursor"], bare := .cursor } [("cursor", ["cursor"])] ++
  family "touch" "touch-action"
    (themselves ["auto", "none", "manipulation", "pan-x", "pan-left", "pan-right", "pan-y",
      "pan-up", "pan-down", "pinch-zoom"]) ++
  (["none", "text", "all", "auto"].map fun value => declares ("select-" ++ value)
    [("-webkit-user-select", value), ("user-select", value)]) ++
  family "" "resize"
    [("resize-none", "none"), ("resize", "both"), ("resize-x", "horizontal"),
     ("resize-y", "vertical")] ++
  snapUtilities ++
  setters { spacingRule ["--scroll-margin", "--spacing"] with negatable := true }
    scrollMargins ++
  setters (spacingRule ["--scroll-padding", "--spacing"]) scrollPaddings ++
  family "list" "list-style-position" (themselves ["inside", "outside"]) ++
  setters
    { themeKeys := ["--list-style-type"], keywords := themselves ["none", "disc", "decimal"] }
    [("list", ["list-style-type"])] ++
  setters { themeKeys := ["--list-style-image"], keywords := themselves ["none"] }
    [("list-image", ["list-style-image"])] ++
  family "appearance" "appearance" (themselves ["none", "auto"]) ++
  setters
    { themeKeys := ["--columns", "--container"]
      keywords := themselves ["auto"]
      bare := .integer }
    [("columns", ["columns"])]

end UtilityCss
