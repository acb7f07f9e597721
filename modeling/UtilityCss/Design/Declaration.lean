import UtilityCss.Design.Apply
import UtilityCss.Design.VariantBlock
import UtilityCss.Plugin.Extension
import UtilityCss.Theme.Function

/-!
# Variants and utilities declared in stylesheets

At the top level of a stylesheet, `@custom-variant` or `@variant` declares a variant by a list of
selectors or by a body with `@slot` in it, and `@utility` declares a utility by its body.
-/

namespace UtilityCss

/-- The name and the rest of the parameters of a variant's declaration. -/
def splitVariantParams (params : String) : String × String :=
  let s := Chars.trim params.toList
  let name := s.takeWhile fun c => !isBlank c && c != '('
  (String.ofList name, String.ofList (Chars.trim (s.drop name.length)))

def isVariantName (s : String) : Bool :=
  !s.isEmpty && !Text.startsWith s "-" && !Text.endsWith s "-" &&
    Text.all (fun c => c.isLower || c.isDigit || c == '-' || c == '_') s

/-- The selectors in parentheses that declare a variant. -/
def readVariantSelectors (name text : String) : Except DirectiveFault VariantRule :=
  match between? "(" ")" text with
  | none => .error (.variantWithoutBody name)
  | some inner =>
    let selectors := ((segment inner ',').map Text.trim).filter (!·.isEmpty)
    if selectors.isEmpty then .error (.variantWithoutSelector name) else .ok (.selectors selectors)

/-- The variant that parameters and a body declare. -/
def readVariantDeclaration (params : String) (body : Option (List Node)) :
    Except DirectiveFault (String × VariantRule) :=
  let (name, rest) := splitVariantParams params
  if !isVariantName name then .error (.variantName name)
  else match body with
    | none => (readVariantSelectors name rest).map (name, ·)
    | some body =>
      if !rest.isEmpty then .error (.variantWithBoth name)
      else if (allNodes body).any (·.isAt "slot") then .ok (name, .body body)
      else .error (.variantWithoutSlot name)

/-- The parameters and the body of an at-rule with one of the names. -/
def Node.directive? (names : List String) : Node → Option (String × Option (List Node))
  | .atRule name params body => if names.contains name then some (params, some body) else none
  | .statement name params => if names.contains name then some (params, none) else none
  | _ => none

def Node.variantDeclaration? (n : Node) : Option (String × Option (List Node)) :=
  n.directive? ["variant", "custom-variant"]

def Node.utilityDeclaration? (n : Node) : Option (String × Option (List Node)) :=
  n.directive? ["utility"]

def isUtilityName (s : String) : Bool :=
  match s.toList with
  | [] => false
  | c :: _ => (c.isLower || c == '-') && !Text.endsWith s "-" &&
    Text.all (fun c => c.isAlphanum || ['-', '_', '.', '/'].contains c) s

/-- The utility that a name and a body declare: one with values if the name ends in `-*`. -/
def readUtility (name : String) (body : List Node) : Except DirectiveFault (String × Recipe) :=
  match Text.beforeTail? "-*" name with
  | some root =>
    if isUtilityName root then .ok (root, .declared body) else .error (.utilityName name)
  | none => if isUtilityName name then .ok (name, .fixed body) else .error (.utilityName name)

namespace DesignSystem

def declareVariant (d : DesignSystem) (params : String) (body : Option (List Node)) :
    Except CompileError DesignSystem := do
  let (name, rule) ← (readVariantDeclaration params body).mapError .invalidDirective
  return d.addVariant name rule

/-- Adds the variants that the nodes declare. -/
def declareVariants (d : DesignSystem) (ns : List Node) : Except CompileError DesignSystem :=
  (ns.filterMap Node.variantDeclaration?).foldlM
    (fun d (params, body) => d.declareVariant params body) d

/-- The body of a utility with all that is to be expanded in it. -/
def expandBody (d : DesignSystem) (body : List Node) : Except CompileError (List Node) := do
  let ns ← d.expandInRule body
  let ns ← d.applyEach ns
  evaluateEach d.theme ns

def declareUtility (d : DesignSystem) (params : String) (body : Option (List Node)) :
    Except CompileError DesignSystem := do
  let name := Text.trim params
  match body with
  | none => .error (.invalidDirective (.utilityWithoutBody name))
  | some body =>
    let body ← d.expandBody body
    let (root, recipe) ← (readUtility name body).mapError .invalidDirective
    return { d with utilities := d.utilities.add root recipe }

/-- Adds the utilities that the nodes declare, each of which may use those before it. -/
def declareUtilities (d : DesignSystem) (ns : List Node) : Except CompileError DesignSystem :=
  (ns.filterMap Node.utilityDeclaration?).foldlM
    (fun d (params, body) => d.declareUtility params body) d

end DesignSystem

end UtilityCss
