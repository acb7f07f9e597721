import UtilityCss.Candidate.Argument

/-!
# Variants

A variant in front of a class name says when a utility applies: `hover`, `aria-checked`,
`group-hover`, `[&_p]`.
-/

namespace UtilityCss

inductive Variant where
  | static (root : String)
  | functional (root : String) (value modifier : Option Argument)
  /-- A variant such as `group` or `not` around another one. -/
  | compound (root : String) (modifier : Option Argument) (inner : Variant)
  /-- A selector or at-rule in square brackets; a relative selector begins with a combinator. -/
  | arbitrary (selector : String) (relative : Bool)
  deriving DecidableEq, Repr

namespace Variant

/-- The name that a variant is registered by. -/
def root? : Variant → Option String
  | static root => some root
  | functional root _ _ => some root
  | compound root _ _ => some root
  | arbitrary _ _ => none

def isArbitrary : Variant → Bool
  | arbitrary _ _ => true
  | _ => false

/-- How many compounds are around the innermost variant. -/
def depth : Variant → Nat
  | compound _ _ inner => inner.depth + 1
  | _ => 0

end Variant

end UtilityCss
