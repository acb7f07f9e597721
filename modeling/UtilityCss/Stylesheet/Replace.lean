import UtilityCss.Stylesheet.Node

/-!
# Replacement that may fail or happens once

`tryReplaceEach` replaces nodes as `replaceEach` does, where a replacement may fail; the first fault
in document order is the fault of the whole. `placeAtFirst` puts nodes in the place of the first
marker and removes all later markers.
-/

namespace UtilityCss

mutual

/-- The nodes that stand in the place of a node, unless one of the replacements fails. -/
def Node.tryReplace {ε : Type} (f : Node → Except ε (Option (List Node))) :
    Node → Except ε (List Node)
  | .rule sel ns => do
    match ← f (.rule sel ns) with
    | some new => return new
    | none => return [.rule sel (← tryReplaceEach f ns)]
  | .atRule name params ns => do
    match ← f (.atRule name params ns) with
    | some new => return new
    | none => return [.atRule name params (← tryReplaceEach f ns)]
  | n => (f n).map (·.getD [n])

/-- Splices the list that `f` gives in the place of every outermost node for which it gives one. -/
def tryReplaceEach {ε : Type} (f : Node → Except ε (Option (List Node))) :
    List Node → Except ε (List Node)
  | [] => .ok []
  | n :: ns => do
    let new ← n.tryReplace f
    let rest ← tryReplaceEach f ns
    return new ++ rest

end

mutual

/-- What becomes of a node, and whether a marker has been met by its end; `met` says whether one was
before. -/
def Node.placeAtFirst (isMarker : Node → Bool) (new : Node → List Node) (met : Bool) :
    Node → List Node × Bool
  | .rule sel ns =>
    if isMarker (.rule sel ns) then (if met then [] else new (.rule sel ns), true)
    else
      let (ns, met) := placeEach isMarker new met ns
      ([.rule sel ns], met)
  | .atRule name params ns =>
    if isMarker (.atRule name params ns) then (if met then [] else new (.atRule name params ns), true)
    else
      let (ns, met) := placeEach isMarker new met ns
      ([.atRule name params ns], met)
  | n => if isMarker n then (if met then [] else new n, true) else ([n], met)

def placeEach (isMarker : Node → Bool) (new : Node → List Node) (met : Bool) :
    List Node → List Node × Bool
  | [] => ([], met)
  | n :: ns =>
    let (front, met) := n.placeAtFirst isMarker new met
    let (rest, met) := placeEach isMarker new met ns
    (front ++ rest, met)

end

/-- Puts nodes in the place of the first marker in document order and removes the later markers.
Also tells whether there is a marker. -/
def placeAtFirst (isMarker : Node → Bool) (new : List Node) (ns : List Node) : List Node × Bool :=
  placeEach isMarker (fun _ => new) false ns

/-- Removes all markers but the first. -/
def keepFirst (isMarker : Node → Bool) (ns : List Node) : List Node :=
  (placeEach isMarker (fun n => [n]) false ns).1

end UtilityCss
