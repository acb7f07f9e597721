import UtilityCss.Utility.Recipe

/-!
# The registry of utilities

Utilities are kept in the order in which they are registered, which is their order in the cascade.
Several may have the same name, and the first one that fits a candidate is used.
-/

namespace UtilityCss

structure Utilities where
  entries : List (String × Recipe) := []

namespace Utilities

def add (us : Utilities) (name : String) (recipe : Recipe) : Utilities :=
  ⟨us.entries ++ [(name, recipe)]⟩

/-- Whether a utility of a kind has the name. -/
def has (us : Utilities) (name : String) (kind : UtilityKind) : Bool :=
  us.entries.any fun (n, recipe) => recipe.kind == kind && n == name

/-- The recipes of a name, with their places in the cascade. -/
def recipes (us : Utilities) (name : String) : List (Recipe × Nat) :=
  us.entries.zipIdx.filterMap fun ((n, recipe), order) =>
    if n == name then some (recipe, order) else none

/-- Arbitrary properties come behind all utilities. -/
def arbitraryOrder (us : Utilities) : Nat := us.entries.length

/-- The names in the order in which they were first registered. -/
def names (us : Utilities) : List String := (us.entries.map (·.1)).eraseDups

/-- The nodes that the first fitting utility of a name and kind makes for a candidate, and its place
in the cascade. -/
def generate? (us : Utilities) (t : Theme) (name : String) (kind : UtilityKind) (c : Candidate) :
    Option (List Node × Nat) :=
  (us.recipes name).findSome? fun (recipe, order) => do
    let ns ← if recipe.kind == kind then recipe.nodes? t c else none
    if ns.isEmpty then none else return (ns, order)

end Utilities

end UtilityCss
