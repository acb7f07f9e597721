import UtilityCss.CompileError
import UtilityCss.Design.System
import UtilityCss.Stylesheet.Replace

/-!
# Applied class names

An `@apply` in a rule stands for the nodes of class names, sorted as in the output, where equal
wrappers next to each other become one. A class name that stands for nothing is a fault.
-/

namespace UtilityCss

mutual

/-- Puts a node behind others. If it wraps as the last one does, its children go into that one. -/
def Node.appendTo (out : List Node) : Node → List Node
  | .rule sel ns => match out.getLast? with
    | some (.rule last inner) =>
      if last == sel then out.dropLast ++ [.rule last (appendEach inner ns)]
      else out ++ [.rule sel ns]
    | _ => out ++ [.rule sel ns]
  | .atRule name params ns => match out.getLast? with
    | some (.atRule last lastParams inner) =>
      if last == name && lastParams == params && name != "property" then
        out.dropLast ++ [.atRule last lastParams (appendEach inner ns)]
      else out ++ [.atRule name params ns]
    | _ => out ++ [.atRule name params ns]
  | n => out ++ [n]

def appendEach (out : List Node) : List Node → List Node
  | [] => out
  | n :: ns => appendEach (n.appendTo out) ns

end

namespace DesignSystem

/-- Why a class name stands for nothing: the first variant that cannot be read, or the utility. -/
def unknown (d : DesignSystem) (raw : String) : CompileError :=
  match (splitVariants raw).1.find? fun v => (d.variants.read? v).isNone with
  | some v => .unknownVariant v
  | none => .unknownUtility raw

/-- The word that makes everything important that is applied with it. -/
def importantWord : String := "!important"

/-- The nodes that a list of class names stands for. -/
def apply (d : DesignSystem) (params : String) : Except CompileError (List Node) := do
  let (marks, names) := (Text.words params).partition (· == importantWord)
  let compiled ← names.mapM fun raw => match d.compile? raw with
    | some c => .ok c
    | none => .error (d.unknown raw)
  let ns := appendEach [] ((d.sort compiled).flatMap (·.nodes))
  return if marks.isEmpty then ns else markImportant ns

/-- Writes what they stand for in the place of all lists of applied class names. -/
def applyEach (d : DesignSystem) (ns : List Node) : Except CompileError (List Node) :=
  tryReplaceEach (fun
    | .atRule "apply" params _ | .statement "apply" params => (d.apply params).map some
    | _ => .ok none) ns

end DesignSystem

end UtilityCss
