import UtilityCss.Stylesheet.Selector
import UtilityCss.Text.Escape
import UtilityCss.Theme.Lookup
import UtilityCss.Number.Integer
import UtilityCss.Stylesheet.Property
import UtilityCss.Variant.Basic

/-!
# What variants do

A static or functional variant wraps the nodes of a utility in rules and at-rules. A compound
variant changes the rules and at-rules that the variant inside it wraps around nothing, and the
nodes are put in afterwards.
-/

namespace UtilityCss

inductive VariantKind where
  | static
  | functional
  | compound
  deriving DecidableEq, Repr

/-- What a variant wraps nodes in, and so what a compound has to be able to change. A variant that
wraps in neither cannot be compounded. -/
structure Compounds where
  styleRules : Bool := false
  atRules : Bool := false
  deriving DecidableEq, Repr

def Compounds.meets (a b : Compounds) : Bool :=
  (a.styleRules && b.styleRules) || (a.atRules && b.atRules)

/-- The at-rules whose condition can be negated. -/
def isNegatable (name : String) : Bool := ["media", "supports", "container"].contains name

inductive VariantRule where
  /-- All the at-rules of the list, outermost first, around one rule with all its selectors. -/
  | selectors (list : List String)
  /-- Nodes with `@slot` where the utility's nodes go. -/
  | body (nodes : List Node)
  | block (name params : String)
  /-- A pseudo-element that appears only with content. -/
  | content (selector : String)
  | directChildren
  /-- A media query that compares the width with a breakpoint. -/
  | breakpoint (operator : String)
  /-- A container query that compares the width with a container size. -/
  | container (operator : String)
  | aria
  | data
  /-- A pseudo-class that takes a number or formula. -/
  | nth (pseudo : String)
  | supports
  | negation
  /-- The state of an element marked by a class, and the combinator from there. -/
  | marker (name combinator : String)
  | has
  | within
  deriving Repr

/-- What selectors and at-rules given as text wrap nodes in. Pseudo-elements and other at-rules than
the conditional ones rule out compounds. -/
def compoundsOfSelectors (selectors : List String) : Compounds :=
  let (ats, styles) := selectors.partition (Text.startsWith · "@")
  if ats.all (fun s => ["@media", "@supports", "@container"].any (Text.startsWith s)) &&
      styles.all (!Text.containsPhrase · "::") then
    ⟨!styles.isEmpty, !ats.isEmpty⟩
  else {}

/-- What the outer nodes of a variant's body wrap nodes in. -/
def compoundsOfBody (ns : List Node) : Compounds :=
  let styles := ns.filterMap fun n => match n with
    | .rule selector _ => some selector
    | _ => none
  let ats := (ns.filterMap Node.atName?).filter (· != "slot")
  if ats.all isNegatable && styles.all (!Text.containsPhrase · "::") then
    ⟨!styles.isEmpty, !ats.isEmpty⟩
  else {}

namespace VariantRule

def kind : VariantRule → VariantKind
  | selectors _ | body _ | block _ _ | content _ | directChildren => .static
  | breakpoint _ | container _ | aria | data | nth _ | supports => .functional
  | negation | marker _ _ | has | within => .compound

/-- What the variant wraps nodes in. -/
def produces : VariantRule → Compounds
  | selectors list => compoundsOfSelectors list
  | body nodes => compoundsOfBody nodes
  | content _ | directChildren => {}
  | block _ _ | breakpoint _ | container _ | supports => ⟨false, true⟩
  | aria | data | nth _ | negation | marker _ _ | has | within => ⟨true, false⟩

/-- What a compound can change. -/
def accepts : VariantRule → Compounds
  | negation => ⟨true, true⟩
  | marker _ _ | has | within => ⟨true, false⟩
  | _ => {}

end VariantRule

/-- Wraps nodes in the at-rules of a list, outermost first. -/
def wrapAtRules (ns : List Node) : List String → Option (List Node)
  | [] => some ns
  | text :: texts => do
    let inner ← wrapAtRules ns texts
    let n ← Node.atRuleOf? text inner
    return [n]

/-- Wraps nodes in a list of selectors and at-rules: in the at-rules, outermost first, and inside
them in one rule for all the selectors. -/
def wrapSelectors (list : List String) (ns : List Node) : Option (List Node) :=
  let (ats, styles) := list.partition (Text.startsWith · "@")
  wrapAtRules (if styles.isEmpty then ns else [.rule (", ".intercalate styles) ns]) ats

/-- The condition that `supports-` asks for: a feature query as it is, a declaration in
parentheses, and for a mere property that it is known at all. -/
def supportsCondition : Argument → String
  | .named value => "(" ++ value ++ ": var(--tw))"
  | .arbitrary value =>
    if ["not ", "selector(", "font-tech(", "font-format(", "("].any (Text.startsWith value) then
      value
    else if Text.containsChar value ':' then "(" ++ value ++ ")"
    else "(" ++ value ++ ": var(--tw))"

/-- A size of a namespace of the theme, or an arbitrary one. -/
def Theme.size? (t : Theme) (name : String) : Argument → Option String
  | .named value => t.resolveValue (some value) [name]
  | .arbitrary value => some value

/-- The number of a child that a variant asks for; a plain name has to be one. -/
def childNumber? : Argument → Option String
  | .named value => (readNat? twoPow32 value).map fun _ => value
  | .arbitrary value => some value

namespace VariantRule

/-- The value of a functional variant that allows no modifier. -/
def onlyValue? (value modifier : Option Argument) : Option Argument :=
  if modifier.isNone then value else none

/-- Wraps nodes as a static or functional variant does, which may refuse its value. -/
def wrap (t : Theme) (value modifier : Option Argument) (ns : List Node) :
    VariantRule → Option (List Node)
  | selectors list => wrapSelectors list ns
  | body nodes => some (replaceEach (fun n => if n.isAt "slot" then some ns else none) nodes)
  | block name params => some [.atRule name params ns]
  | content selector =>
    some [.rule selector ([.plain "content" "var(--tw-content)"] ++ ns ++
      [PropertyDefinition.node "--tw-content" { initial := some "\"\"" }])]
  | directChildren => some [.rule ":is(& > *)" ns]
  | breakpoint operator => do
    let size ← t.size? "--breakpoint" (← onlyValue? value modifier)
    return [.atRule "media" ("(width " ++ operator ++ " " ++ size ++ ")") ns]
  | container operator => do
    let size ← t.size? "--container" (← value)
    let query := "(width " ++ operator ++ " " ++ size ++ ")"
    return [.atRule "container" ((modifier.map (·.text ++ " ")).getD "" ++ query) ns]
  | aria => do
    match ← onlyValue? value modifier with
    | .named s => return [.rule ("&[aria-" ++ s ++ "=\"true\"]") ns]
    | .arbitrary s => return [.rule ("&[aria-" ++ s ++ "]") ns]
  | data => do
    let v ← onlyValue? value modifier
    return [.rule ("&[data-" ++ v.text ++ "]") ns]
  | nth pseudo => do
    let number ← childNumber? (← onlyValue? value modifier)
    return [.rule ("&:" ++ pseudo ++ "(" ++ number ++ ")") ns]
  | supports => do
    let v ← onlyValue? value modifier
    return [.atRule "supports" (supportsCondition v) ns]
  | _ => none

end VariantRule

/-- The selector that a selector relative to `&` has inside `:not()`. -/
def selectorToNegate (selector : String) : String :=
  match Text.afterLead? "&" selector with
  | some rest =>
    if selector.toList.count '&' == 1 then rest else replaceNesting selector "*"
  | none => replaceNesting selector "*"

/-- The negation of every selector of a list. -/
def negateSelectors (selector : String) : String :=
  let alternatives := (segment selector ',').map Text.trim
  "&:not(" ++ ", ".intercalate (alternatives.map selectorToNegate) ++ ")"

/-- The condition with `not` in front, behind the name of a container if there is one, or without
the `not` that stands in front already. -/
def negateCondition (name params : String) : String :=
  match Text.afterLead? "not " params with
  | some rest => rest
  | none =>
    let whole := "not " ++ params
    if name == "container" && !Text.startsWith params "(" then
      match Text.cutAt (· == ' ') params with
      | some (containerName, query) => containerName ++ " not " ++ query
      | none => whole
    else whole

/-- The selector for an element inside or behind one that has the marker class, with a name of its
own behind a slash, and is in the state of the given selector. -/
def markerSelector (name combinator selector : String) (modifier : Option Argument) : String :=
  let label := (modifier.map fun m => "\\/" ++ escape m.text).getD ""
  let state := replaceNesting selector (":where(." ++ name ++ label ++ ")")
  let state := if (segment state ',').length > 1 then ":is(" ++ state ++ ")" else state
  "&:is(" ++ state ++ combinator ++ ")"

namespace VariantRule

/-- Changes a node that the variant inside a compound has wrapped. -/
def change (modifier : Option Argument) (rule : VariantRule) (n : Node) : Option Node :=
  match rule, n, modifier with
  | negation, .rule selector ns, none => some (.rule (negateSelectors selector) ns)
  | negation, .atRule name params ns, none =>
    if isNegatable name then some (.atRule name (negateCondition name params) ns) else none
  | negation, .statement name params, none =>
    if isNegatable name then some (.statement name (negateCondition name params)) else none
  | marker name combinator, .rule selector ns, _ =>
    some (.rule (markerSelector name combinator selector modifier) ns)
  | has, .rule selector ns, none =>
    some (.rule ("&:has(" ++ replaceNesting selector "*" ++ ")") ns)
  | within, .rule selector ns, none =>
    some (.rule (":where(" ++ replaceNesting selector "*" ++ ") &") ns)
  | _, _, _ => none

end VariantRule

end UtilityCss
