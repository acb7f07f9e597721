import UtilityCss.Candidate.Root
import UtilityCss.Variant.Rule

/-!
# The registry of variants

Every variant has a place in the cascade. A variant that is registered again keeps its place. The
variants of a group share one place and are ranked among themselves by size.
-/

namespace UtilityCss

structure VariantEntry where
  name : String
  rule : VariantRule
  order : Nat
  deriving Repr

/-- A group of variants that are ranked by a size in a namespace of the theme, and at equal sizes by
the position of their roots in the list. -/
structure SizeRanking where
  namespaceKey : String
  roots : List String
  deriving DecidableEq, Repr

structure Variants where
  theme : Theme := {}
  entries : List VariantEntry := []
  rankings : List (Nat × SizeRanking) := []
  nextOrder : Nat := 0
  deriving Repr

namespace Variants

def get? (vs : Variants) (name : String) : Option VariantEntry :=
  vs.entries.find? (·.name == name)

def has (vs : Variants) (name : String) : Bool := (vs.get? name).isSome

def kind? (vs : Variants) (name : String) : Option VariantKind :=
  (vs.get? name).map (·.rule.kind)

def names (vs : Variants) : List String := vs.entries.map (·.name)

/-- Adds a variant at a place of the cascade; one that is there already gets the new rule. -/
def put (vs : Variants) (name : String) (rule : VariantRule) (order : Nat) : Variants :=
  if vs.has name then
    { vs with entries := vs.entries.map fun e => if e.name == name then { e with rule } else e }
  else { vs with entries := vs.entries ++ [⟨name, rule, order⟩] }

/-- Registers a variant at the next place of the cascade. -/
def register (vs : Variants) (name : String) (rule : VariantRule) : Variants :=
  let next := if vs.has name then vs.nextOrder else vs.nextOrder + 1
  { vs.put name rule vs.nextOrder with nextOrder := next }

def registerAll (vs : Variants) (rules : List (String × VariantRule)) : Variants :=
  rules.foldl (fun vs (name, rule) => vs.register name rule) vs

/-- Registers variants at one place of the cascade, ranked by size. -/
def registerGroup (vs : Variants) (ranking : SizeRanking) (rules : List (String × VariantRule)) :
    Variants :=
  let order := vs.nextOrder
  let vs := rules.foldl (fun vs (name, rule) => vs.put name rule order) vs
  { vs with nextOrder := order + 1, rankings := (order, ranking) :: vs.rankings }

/-- What a variant wraps nodes in; none for one that is not registered. -/
def produces? (vs : Variants) : Variant → Option Compounds
  | .arbitrary selector _ => some (compoundsOfSelectors [selector])
  | v => (v.root?.bind vs.get?).map (·.rule.produces)

/-- Whether a compound variant may stand around another variant. -/
def compoundsWith (vs : Variants) (parent : String) (child : Variant) : Bool :=
  match vs.get? parent, vs.produces? child with
  | some e, some c => e.rule.accepts.meets c
  | _, _ => false

end Variants

end UtilityCss
