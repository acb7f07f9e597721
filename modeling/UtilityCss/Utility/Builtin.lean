import UtilityCss.Utility.Builtin.Background
import UtilityCss.Utility.Builtin.Border
import UtilityCss.Utility.Builtin.Effect
import UtilityCss.Utility.Builtin.Flex
import UtilityCss.Utility.Builtin.Layout
import UtilityCss.Utility.Builtin.Motion
import UtilityCss.Utility.Builtin.Transform
import UtilityCss.Utility.Builtin.Typography
import UtilityCss.Utility.Registry

/-!
# The built-in utilities

Shorthands come before what they are short for, so that the more specific class name wins.
-/

namespace UtilityCss

def paddings : List (String × List String) :=
  [("p", ["padding"]), ("px", ["padding-left", "padding-right"]),
   ("py", ["padding-top", "padding-bottom"]), ("ps", ["padding-inline-start"]),
   ("pe", ["padding-inline-end"]), ("pt", ["padding-top"]), ("pr", ["padding-right"]),
   ("pb", ["padding-bottom"]), ("pl", ["padding-left"])]

/-- All built-in utilities in the order of the cascade. -/
def builtinUtilities : UtilityTable :=
  layoutUtilities ++ placementUtilities ++ boxUtilities ++ flexUtilities ++
  transformUtilities ++ interactionUtilities ++ gridUtilities ++ alignmentUtilities ++
  overflowUtilities ++ borderUtilities ++ backgroundUtilities ++ graphicUtilities ++
  setters (spacingRule ["--padding", "--spacing"]) paddings ++
  typographyUtilities ++ effectUtilities ++ filterUtilities ++ transitionUtilities ++
  motionUtilities

def Utilities.builtin : Utilities := ⟨builtinUtilities⟩

end UtilityCss
