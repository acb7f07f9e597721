import UtilityCss.Utility.Table

/-!
# Backgrounds and replaced elements
-/

namespace UtilityCss

/-- The places in a box, by the names of its sides and corners. -/
def placements : List (String × String) :=
  [("bottom", "bottom"), ("center", "center"), ("left", "left"), ("left-bottom", "left bottom"),
   ("left-top", "left top"), ("right", "right"), ("right-bottom", "right bottom"),
   ("right-top", "right top"), ("top", "top")]

/-- The stops of a gradient with two colours. -/
def gradientStops : String :=
  "var(--tw-gradient-via-stops, var(--tw-gradient-position), var(--tw-gradient-from) " ++
    "var(--tw-gradient-from-position), var(--tw-gradient-to) var(--tw-gradient-to-position))"

/-- The stops of a gradient with three colours. -/
def gradientViaStops : String :=
  "var(--tw-gradient-position), var(--tw-gradient-from) var(--tw-gradient-from-position), " ++
    "var(--tw-gradient-via) var(--tw-gradient-via-position), var(--tw-gradient-to) " ++
    "var(--tw-gradient-to-position)"

/-- The utilities for a stop of a gradient: its colour, with what that sets up, and its position. -/
def stopUtilities (stop : String) (setup : List Template) : UtilityTable :=
  [(stop, .colored ["--background-color", "--color"]
     (.set ("--tw-gradient-" ++ stop) :: setup ++ gradientProperties)),
   (stop, .valued { bare := .stopPosition, types := [.length, .percentage] }
     (.set ("--tw-gradient-" ++ stop ++ "-position") :: gradientProperties))]

def backgroundUtilities : UtilityTable :=
  [colorSetter "bg" "background-color" ["--background-color", "--color"],
   declares "bg-none" [("background-image", "none")],
   ("bg", .background), ("bg-linear", .gradient), ("bg-gradient", .gradient)] ++
  family "bg" "background-position" placements ++
  family "bg" "background-size" (themselves ["auto", "cover", "contain"]) ++
  family "bg" "background-repeat"
    [("repeat", "repeat"), ("no-repeat", "no-repeat"), ("repeat-x", "repeat-x"),
     ("repeat-y", "repeat-y"), ("repeat-round", "round"), ("repeat-space", "space")] ++
  family "bg" "background-attachment" (themselves ["fixed", "local", "scroll"]) ++
  stopUtilities "from" [.fixed "--tw-gradient-stops" gradientStops] ++
  stopUtilities "via"
    [.fixed "--tw-gradient-via-stops" gradientViaStops,
     .fixed "--tw-gradient-stops" "var(--tw-gradient-via-stops)"] ++
  stopUtilities "to" [.fixed "--tw-gradient-stops" gradientStops]

def graphicUtilities : UtilityTable :=
  [declares "fill-none" [("fill", "none")], colorSetter "fill" "fill" ["--fill", "--color"],
   declares "stroke-none" [("stroke", "none")],
   colorSetter "stroke" "stroke" ["--stroke", "--color"]] ++
  setters
    { themeKeys := ["--stroke-width"], bare := .integer, types := [.length, .number, .percentage] }
    [("stroke", ["stroke-width"])] ++
  family "object" "object-fit" (themselves ["contain", "cover", "fill", "none", "scale-down"]) ++
  family "object" "object-position" placements

end UtilityCss
