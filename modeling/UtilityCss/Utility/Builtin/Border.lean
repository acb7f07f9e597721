import UtilityCss.Utility.Table

/-!
# Borders and corners
-/

namespace UtilityCss

def corners : List (String × List String) :=
  [("rounded", ["border-radius"]),
   ("rounded-s", ["border-start-start-radius", "border-end-start-radius"]),
   ("rounded-e", ["border-start-end-radius", "border-end-end-radius"]),
   ("rounded-t", ["border-top-left-radius", "border-top-right-radius"]),
   ("rounded-r", ["border-top-right-radius", "border-bottom-right-radius"]),
   ("rounded-b", ["border-bottom-right-radius", "border-bottom-left-radius"]),
   ("rounded-l", ["border-top-left-radius", "border-bottom-left-radius"]),
   ("rounded-ss", ["border-start-start-radius"]),
   ("rounded-se", ["border-start-end-radius"]),
   ("rounded-ee", ["border-end-end-radius"]),
   ("rounded-es", ["border-end-start-radius"]),
   ("rounded-tl", ["border-top-left-radius"]),
   ("rounded-tr", ["border-top-right-radius"]),
   ("rounded-br", ["border-bottom-right-radius"]),
   ("rounded-bl", ["border-bottom-left-radius"])]

/-- The sides that the utilities for borders are for: the end of the name and the parts of the
properties. No part is the shorthand for all sides. -/
def borderSides : List (String × List String) :=
  [("", [""]), ("-x", ["-left", "-right"]), ("-y", ["-top", "-bottom"]), ("-s", ["-inline-start"]),
   ("-e", ["-inline-end"]), ("-t", ["-top"]), ("-r", ["-right"]), ("-b", ["-bottom"]),
   ("-l", ["-left"])]

/-- The style that borders have unless a utility says otherwise. -/
def borderStyle : Template := initialized "--tw-border-style" "solid"

def borderUtilities : UtilityTable :=
  setters
    { themeKeys := ["--radius"]
      keywords := [("none", "0"), ("full", "calc(infinity * 1px)")]
      defaultKey := some "--radius"
      defaultValue := some "0.25rem" }
    corners ++
  (["solid", "dashed", "dotted", "double", "hidden", "none"].map fun style =>
    constant ("border-" ++ style)
      [.fixed "--tw-border-style" style, .fixed "border-style" style, borderStyle]) ++
  (borderSides.map fun (ending, sides) => ("border" ++ ending, .valued
    { themeKeys := ["--border-width"]
      defaultKey := some "--default-border-width"
      defaultValue := some "1px"
      bare := .pixels
      types := [.lineWidth, .length] }
    ([.fixed "border-style" "var(--tw-border-style)"] ++
      setAll (sides.map fun side => "border" ++ side ++ "-width") ++ [borderStyle]))) ++
  (borderSides.map fun (ending, sides) => ("border" ++ ending, .colored
    ["--border-color", "--color"] (setAll (sides.map fun side => "border" ++ side ++ "-color"))))

end UtilityCss
