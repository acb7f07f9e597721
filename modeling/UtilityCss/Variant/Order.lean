import UtilityCss.Value.Measure
import UtilityCss.Variant.Registry

/-!
# The order of variants

Variants are ordered by their place in the cascade, those of one place by size if they are ranked by
it, and then by name, value and modifier. A compound variant comes behind the variant inside it and
before whatever follows that one. Arbitrary variants come last.
-/

namespace UtilityCss

/-- Units in the order in which sizes are ranked by them. -/
def rankedUnits : List String :=
  ["px", "em", "rem", "vh", "vw", "%", "ch", "ex", "lh", "rlh", "vmin", "vmax", "cqw", "cqh"]

/-- A size as it is ranked: by its unit, the unknown ones last and texts without a number behind
them, then by its number and its text. -/
structure SizeKey where
  unit : Nat
  number : Binary
  text : String

def SizeKey.read (size : String) : SizeKey :=
  let size := Text.trim size
  let (number, unit) := splitMeasure (fun c => c.isDigit || c == '.' || c == '-') size
  match readDouble? number with
  | some x => ⟨rankedUnits.idxOf unit, x, size⟩
  | none => ⟨rankedUnits.length + 1, .finite 0, size⟩

def SizeKey.order (a b : SizeKey) : Ordering :=
  (compare a.unit b.unit).then ((a.number.order b.number).then (compare a.text b.text))

/-- The order of two sizes; a variant without one comes first. -/
def orderSizes : Option String → Option String → Ordering
  | some a, some b => (SizeKey.read a).order (SizeKey.read b)
  | a, b => compare a b

/-- How a variant is ranked in its group. -/
structure RankKey where
  size : Option String
  root : Nat
  name : String

namespace SizeRanking

/-- The position of a root in the list of the ranking; an unknown root counts as the first one. -/
def rootRank (r : SizeRanking) (root : String) : Nat :=
  if r.roots.contains root then r.roots.idxOf root else 0

def key (r : SizeRanking) (t : Theme) : Variant → RankKey
  | .static root => ⟨t.resolveValue (some root) [r.namespaceKey], 0, root⟩
  | .functional root (some value) _ => ⟨t.size? r.namespaceKey value, r.rootRank root, value.text⟩
  | _ => ⟨none, 0, ""⟩

def order (r : SizeRanking) (t : Theme) (a b : Variant) : Ordering :=
  let a := r.key t a
  let b := r.key t b
  (orderSizes a.size b.size).then ((compare a.root b.root).then (compare a.name b.name))

end SizeRanking

namespace Variant

def valueText? : Variant → Option String
  | functional _ value _ => value.map (·.text)
  | _ => none

def modifierText? : Variant → Option String
  | functional _ _ modifier => modifier.map (·.text)
  | _ => none

def rootName (v : Variant) : String := v.root?.getD ""

end Variant

namespace Variants

/-- The place of a variant in the cascade; what is not registered comes behind everything. -/
def orderOf (vs : Variants) (v : Variant) : Nat :=
  ((v.root?.bind vs.get?).map (·.order)).getD vs.nextOrder

/-- The order of two variants in the group at a place of the cascade, if there is one. -/
def orderInGroup (vs : Variants) (order : Nat) (a b : Variant) : Ordering :=
  match vs.rankings.lookup order with
  | some r => r.order vs.theme a b
  | none => .eq

/-- The order of two static or functional variants. -/
def compareSimple (vs : Variants) (a b : Variant) : Ordering :=
  (compare (vs.orderOf a) (vs.orderOf b)).then <|
    (vs.orderInGroup (vs.orderOf a) a b).then <|
      (compare a.rootName b.rootName).then <|
        (compare a.valueText? b.valueText?).then (compare a.modifierText? b.modifierText?)

/-- The order of two compound variants of which the ones inside are equal in order. -/
def compareCompound (vs : Variants) (a b : Variant) (modifierA modifierB : Option Argument) :
    Ordering :=
  (compare (vs.orderOf a) (vs.orderOf b)).then <|
    (compare a.rootName b.rootName).then (compare modifierA modifierB)

/-- The order of two variants in the cascade. -/
def compare (vs : Variants) (a b : Variant) : Ordering :=
  match a, b with
  | .arbitrary s _, .arbitrary t _ => Ord.compare s t
  | .arbitrary _ _, _ => .gt
  | _, .arbitrary _ _ => .lt
  | .compound r m x, .compound q n y =>
    (compare vs x y).then (vs.compareCompound (.compound r m x) (.compound q n y) m n)
  | .compound _ _ x, b => (compare vs x b).then .gt
  | a, .compound _ _ y => (compare vs a y).then .lt
  | a, b => vs.compareSimple a b
termination_by a.depth + b.depth
decreasing_by all_goals simp only [Variant.depth]; omega

end Variants

end UtilityCss
