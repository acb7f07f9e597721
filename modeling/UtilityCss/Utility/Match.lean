import UtilityCss.Plugin.Tree
import UtilityCss.Utility.Value

/-!
# Functional utilities of plugins
-/

namespace UtilityCss

/-- How a utility of a plugin finds its value and its modifier. -/
structure MatchRule where
  /-- The plain values. `DEFAULT` is the one of a class name without a value. -/
  values : List (String × String) := []
  /-- The types that an arbitrary value may have; none admit any value. -/
  types : List DataType := []
  negatable : Bool := false
  /-- The plain modifiers. Without a list of them no modifier is allowed. -/
  modifiers : Option (List (String × String)) := none
  deriving Repr

/-- The value of a key in a table whose later rows override earlier ones. -/
def lookupLast (key : String) (table : List (String × String)) : Option String :=
  table.reverse.lookup key

namespace MatchRule

/-- The value of a candidate, and whether the modifier is part of it. -/
def value? (r : MatchRule) : Option CandidateValue → Option (String × Bool)
  | none => (lookupLast "DEFAULT" r.values).map (·, false)
  | some (.arbitrary value hint) =>
    if acceptsArbitrary value hint r.types then some (value, false) else none
  | some (.named value fraction) =>
    (fraction.bind (lookupLast · r.values)).map (·, true) <|>
      (lookupLast value r.values).map (·, false)

/-- The text that a modifier stands for. -/
def modifier? (r : MatchRule) (m : Argument) : Option String :=
  r.modifiers.bind fun table => match m with
    | .named name => lookupLast name table
    | .arbitrary text => some text

/-- The nodes that the utility gives for a candidate. -/
def nodes? (r : MatchRule) (trees : List PluginTree) (c : Candidate) : Option (List Node) := do
  let (value, consumed) ← r.value? c.value?
  let modifier ← match c.modifier? with
    | some m => if consumed then some none else (r.modifier? m).map some
    | none => some none
  if c.negative && !r.negatable then none
  else
    let ns := resolveTrees (if c.negative then negate value else value) modifier trees
    if ns.isEmpty then none else return ns

end MatchRule

end UtilityCss
