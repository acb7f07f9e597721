import UtilityCss.Utility.Table

/-!
# Shadows, rings, outlines and filters
-/

namespace UtilityCss

def shadowChain : String :=
  "var(--tw-inset-shadow), var(--tw-inset-ring-shadow), var(--tw-ring-offset-shadow), " ++
    "var(--tw-ring-shadow), var(--tw-shadow)"

/-- The variables that shadows and rings share. -/
def shadowProperties : List Template :=
  [initialized "--tw-shadow" "0 0 #0000", uninitialized "--tw-shadow-color",
   initialized "--tw-inset-shadow" "0 0 #0000", initialized "--tw-inset-ring-shadow" "0 0 #0000",
   uninitialized "--tw-ring-color", initialized "--tw-ring-shadow" "0 0 #0000",
   uninitialized "--tw-ring-inset",
   .property "--tw-ring-offset-width" { initial := some "0px", grammar := "\"<length>\"" },
   initialized "--tw-ring-offset-color" "#fff",
   initialized "--tw-ring-offset-shadow" "0 0 #0000"]

/-- A utility that keeps a colour in a variable for the shadows of an element. -/
def shadowColor (name property key : String) : String × Recipe :=
  (name, .colored [key, "--color"] (.set property :: shadowProperties))

def shadowUtilities : UtilityTable :=
  [("shadow", .valued { themeKeys := ["--shadow"], keywords := [("none", "0 0 #0000")] }
     ([.set "--tw-shadow", .fixed "box-shadow" shadowChain] ++ shadowProperties)),
   shadowColor "shadow" "--tw-shadow-color" "--box-shadow-color",
   constant "ring-inset" (.fixed "--tw-ring-inset" "inset" :: shadowProperties),
   ("ring", .valued
     { themeKeys := ["--ring-width"]
       defaultKey := some "--default-ring-width"
       defaultValue := some "1px"
       bare := .pixels
       types := [.length] }
     ([.decl "--tw-ring-shadow"
         ["var(--tw-ring-inset,) 0 0 0 calc(",
          " + var(--tw-ring-offset-width)) var(--tw-ring-color, currentcolor)"],
       .fixed "box-shadow" shadowChain] ++ shadowProperties)),
   shadowColor "ring" "--tw-ring-color" "--ring-color",
   ("ring-offset", .valued
     { themeKeys := ["--ring-offset-width"], bare := .pixels, types := [.length] }
     ([.set "--tw-ring-offset-width",
       .fixed "--tw-ring-offset-shadow"
         ("var(--tw-ring-inset,) 0 0 0 var(--tw-ring-offset-width) " ++
           "var(--tw-ring-offset-color)")] ++ shadowProperties)),
   shadowColor "ring-offset" "--tw-ring-offset-color" "--ring-offset-color"]

/-- The style that outlines have unless a utility says otherwise. -/
def outlineStyle : Template := initialized "--tw-outline-style" "solid"

def outlineUtilities : UtilityTable :=
  declares "outline-hidden" [("outline", "2px solid transparent"), ("outline-offset", "2px")] ::
  (["none", "solid", "dashed", "dotted", "double"].map fun style =>
    constant ("outline-" ++ style)
      [.fixed "--tw-outline-style" style, .fixed "outline-style" style, outlineStyle]) ++
  [("outline", .valued
     { themeKeys := ["--outline-width"]
       defaultValue := some "1px"
       bare := .pixels
       types := [.length] }
     [.fixed "outline-style" "var(--tw-outline-style)", .set "outline-width", outlineStyle]),
   colorSetter "outline" "outline-color" ["--outline-color", "--color"]] ++
  setters { themeKeys := ["--outline-offset"], bare := .pixels, negatable := true }
    [("outline-offset", ["outline-offset"])]

def effectUtilities : UtilityTable :=
  setters { themeKeys := ["--opacity"], bare := .percent } [("opacity", ["opacity"])] ++
  shadowUtilities ++ outlineUtilities

/-- Filters on an element or on what lies behind it. -/
structure FilterChain where
  /-- The start of the names of its utilities. -/
  start : String
  /-- The properties that apply the chain. -/
  properties : List String
  /-- The functions in the order in which they are applied. -/
  functions : List String

namespace FilterChain

def ownFilters : FilterChain where
  start := ""
  properties := ["filter"]
  functions := ["blur", "brightness", "contrast", "grayscale", "hue-rotate", "invert", "saturate",
    "sepia", "drop-shadow"]

def backdropFilters : FilterChain where
  start := "backdrop-"
  properties := ["-webkit-backdrop-filter", "backdrop-filter"]
  functions := ["blur", "brightness", "contrast", "grayscale", "hue-rotate", "invert", "opacity",
    "saturate", "sepia"]

/-- The variable that holds a function of the chain. -/
def slot (f : FilterChain) (function : String) : String := "--tw-" ++ f.start ++ function

/-- The declarations that apply the functions of the chain. -/
def output (f : FilterChain) : List Template :=
  let slots := f.functions.map f.slot
  let chain := " ".intercalate (slots.map fun name => "var(" ++ name ++ ",)")
  (f.properties.map fun property => .fixed property chain) ++ slots.map uninitialized

/-- How the argument of a function is found. -/
def argument (f : FilterChain) : String → ValueRule
  | "blur" =>
    { themeKeys := if f.start == "backdrop-" then ["--backdrop-blur", "--blur"] else ["--blur"]
      defaultValue := some "8px" }
  | "hue-rotate" => { themeKeys := ["--hue-rotate"], bare := .degrees, negatable := true }
  | "drop-shadow" => { themeKeys := ["--drop-shadow"] }
  | function =>
    { themeKeys := ["--" ++ function]
      bare := .percent
      defaultValue :=
        if ["grayscale", "invert", "sepia"].contains function then some "100%" else none }

def utilities (f : FilterChain) : UtilityTable :=
  [constant (f.start ++ "filter") f.output,
   declares (f.start ++ "filter-none") (f.properties.map fun property => (property, "none"))] ++
  f.functions.map fun function => (f.start ++ function, .valued (f.argument function)
    (.decl (f.slot function) [function ++ "(", ")"] :: f.output))

end FilterChain

def filterUtilities : UtilityTable :=
  FilterChain.ownFilters.utilities ++ FilterChain.backdropFilters.utilities

end UtilityCss
