import UtilityCss.Variant.Registry

/-!
# Reading of variants
-/

namespace UtilityCss

/-- Whether a selector begins with a combinator. -/
def isRelative (selector : String) : Bool := [">", "+", "~"].any (Text.startsWith selector)

/-- Reads a variant in square brackets, without them. A selector without `&` is a condition on the
element itself; an at-rule cannot hold one. -/
def readArbitraryVariant? (inner : String) : Option Variant :=
  if Text.startsWith inner "@" && Text.containsChar inner '&' then none
  else
    let decoded := decodeArbitrary inner
    if !isPlainValue decoded then none
    else
      let selector := Text.trim decoded
      let relative := isRelative selector
      let plain := Text.startsWith selector "@" || relative || Text.containsChar selector '&'
      some (.arbitrary (if plain then selector else "&:is(" ++ selector ++ ")") relative)

namespace Variants

/-- Puts a variant together from a known root, its value and its modifier. `inner` is the variant
that the value names, for a compound. -/
def assemble? (vs : Variants) (root : String) (value modifier : Option String)
    (inner : Option Variant) : Option Variant := do
  match ← vs.kind? root with
  | .static => if value.isSome || modifier.isSome then none else return .static root
  | .functional => return .functional root (← readOptional? value) (← readOptional? modifier)
  | .compound =>
    let inner ← inner
    if vs.compoundsWith root inner then
      return .compound root (← readOptional? modifier) inner
    else none

/-- Reads a variant. A name that is no arbitrary variant is split behind the longest known root. -/
def readFrom? (vs : Variants) (input : List Char) : Option Variant :=
  match between? "[" "]" (String.ofList input) with
  | some inner => readArbitraryVariant? inner
  | none =>
    match hsplit : Chars.splitModifier? input with
    | none => none
    | some (name, modifier) =>
      let known (root : List Char) : Bool := vs.has (String.ofList root)
      match hroot : (Chars.findRoots known name).head? with
      | none => none
      | some (root, value) =>
        let inner := match value with
          | none => none
          | some value =>
            have := Chars.length_of_splitModifier? hsplit
            have := Chars.length_of_mem_findRoots (List.mem_of_mem_head? hroot)
            vs.readFrom? value
        vs.assemble? (String.ofList root) (value.map String.ofList)
          (modifier.map String.ofList) inner
termination_by input.length

def read? (vs : Variants) (s : String) : Option Variant := vs.readFrom? s.toList

end Variants

end UtilityCss
