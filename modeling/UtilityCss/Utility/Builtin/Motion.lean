import UtilityCss.Utility.Builtin.Typography

/-!
# Transitions, containment, generated content and animation
-/

namespace UtilityCss

def colorTransition : String :=
  "color, background-color, border-color, outline-color, text-decoration-color, fill, stroke, " ++
    "--tw-gradient-from, --tw-gradient-via, --tw-gradient-to"

/-- The properties that change gradually unless a utility says otherwise. -/
def defaultTransition : String :=
  colorTransition ++ ", opacity, box-shadow, transform, translate, scale, rotate, filter, " ++
    "-webkit-backdrop-filter, backdrop-filter"

def transitionUtilities : UtilityTable :=
  [declares "transition-none" [("transition-property", "none")],
   ("transition", .valued
     { themeKeys := ["--transition-property"]
       keywords :=
         [("all", "all"), ("colors", colorTransition), ("opacity", "opacity"),
          ("shadow", "box-shadow"), ("transform", "transform, translate, scale, rotate")]
       defaultValue := some defaultTransition }
     [.set "transition-property",
      .fixed "transition-timing-function"
        ("var(--tw-ease, var(--default-transition-timing-function, " ++
          "cubic-bezier(0.4, 0, 0.2, 1)))"),
      .fixed "transition-duration"
        "var(--tw-duration, var(--default-transition-duration, 150ms))"])] ++
  setters { themeKeys := ["--transition-delay"], bare := .milliseconds }
    [("delay", ["transition-delay"])] ++
  [remembering "duration" "--tw-duration" "transition-duration"
     { themeKeys := ["--transition-duration"]
       keywords := themselves ["initial"]
       bare := .milliseconds },
   remembering "ease" "--tw-ease" "transition-timing-function"
     { themeKeys := ["--ease"], keywords := themselves ["linear", "initial"] }]

/-- A kind of containment that can be combined with others, with the variable for it. -/
def containment (value slot : String) : String × Recipe :=
  constant ("contain-" ++ value)
    ([.fixed slot value,
      .fixed "contain" ("var(--tw-contain-size,) var(--tw-contain-layout,) " ++
        "var(--tw-contain-paint,) var(--tw-contain-style,)")] ++
      ["size", "layout", "paint", "style"].map fun kind => uninitialized ("--tw-contain-" ++ kind))

def motionUtilities : UtilityTable :=
  setters
    { keywords := [("auto", "auto"), ("scroll", "scroll-position"), ("contents", "contents"),
        ("transform", "transform")] }
    [("will-change", ["will-change"])] ++
  family "contain" "contain" (themselves ["none", "content", "strict"]) ++
  [containment "size" "--tw-contain-size", containment "inline-size" "--tw-contain-size",
   containment "layout" "--tw-contain-layout", containment "paint" "--tw-contain-paint",
   containment "style" "--tw-contain-style",
   constant "content-none"
     [.fixed "--tw-content" "none", .fixed "content" "none", initialized "--tw-content" "\"\""],
   ("content", .content)] ++
  setters { themeKeys := ["--animate"], keywords := themselves ["none"] }
    [("animate", ["animation"])]

end UtilityCss
