import UtilityCss.Text.Call
import UtilityCss.Utility.Value

/-!
# Utilities declared in the stylesheet

The declarations of a utility `name-*` ask for its value and modifier by `--value(...)` and
`--modifier(...)`, each with a list of what is allowed. A declaration that gets no answer is left
out. The utility fits a candidate only if some call got the value and, where there is a modifier,
some call used that.
-/

namespace UtilityCss

/-- What a call asks about: a plain name with the fraction that it begins, or an arbitrary value
with the type named in front of it. -/
abbrev CallInput := CandidateValue

/-- The input that a modifier is. -/
def Argument.input : Argument → CallInput
  | .named s => .named s none
  | .arbitrary s => .arbitrary s none

/-- What a call is answered with. A ratio is made of the value and the modifier. -/
structure CallAnswer where
  text : String
  isRatio : Bool := false
  deriving DecidableEq, Repr

def CallAnswer.text? (p : Bool) (text : String) : Option CallAnswer :=
  if p then some { text } else none

/-- Whether an arbitrary value is of the type that an argument of a call names in brackets. -/
def answerArbitrary? (value : String) (hint : Option String) (arg : String) :
    Option CallAnswer := do
  let inner ← between? "[" "]" arg
  if inner == "*" then return { text := value }
  else CallAnswer.text? (acceptsArbitrary value hint [← DataType.ofName? inner]) value

/-- What an argument of a call makes of a plain name: a namespace of the theme, a quoted word, or
one of four kinds of number. -/
def answerNamed? (t : Theme) (value : String) (fraction : Option String) (arg : String) :
    Option CallAnswer :=
  match Text.beforeTail? "-*" arg, Text.unquote? arg with
  | some name, _ =>
    if Text.startsWith name "--" then
      (t.resolve (some value) [name]).map fun text => { text }
    else none
  | none, some literal => CallAnswer.text? (literal == value) value
  | none, none =>
    match arg with
    | "integer" => CallAnswer.text? (isPositiveInteger value) value
    | "number" => CallAnswer.text? (isSpacingMultiplier value) value
    | "percentage" =>
      CallAnswer.text? ((Text.beforeTail? "%" value).any isSpacingMultiplier) value
    | "ratio" => (fraction.filter isFraction).map fun f =>
        { text := Text.replaceChar '/' " / " f, isRatio := true }
    | _ => none

/-- What the first argument of a call that fits makes of an input. -/
def answerCall? (t : Theme) (input : CallInput) (args : String) : Option CallAnswer :=
  ((segment args ',').map Text.trim).findSome? fun arg => match input with
    | .named value fraction => answerNamed? t value fraction arg
    | .arbitrary value hint => answerArbitrary? value hint arg

namespace Chars

/-- The text with an answer in the place of every call that begins with `opening`; none if a call
is not closed or not answered. The answer is a ratio if one of the answers is. -/
def answerCalls? (opening : List Char) (answer : List Char → Option CallAnswer) :
    List Char → Option (List Char × Bool)
  | [] => some ([], false)
  | c :: s =>
    match h : opening.isPrefixOf? (c :: s) with
    | none => (answerCalls? opening answer s).map fun (text, ratio) => (c :: text, ratio)
    | some rest =>
      have := length_isPrefixOf? h
      match hcut : cutCall [] 0 none rest with
      | none => none
      | some (args, behind) => do
        have := congrArg List.length (append_of_cutCall hcut)
        let a ← answer args
        let (text, ratio) ← answerCalls? opening answer behind
        return (a.text.toList ++ text, a.isRatio || ratio)
termination_by s => s.length
decreasing_by
  all_goals
    simp only [List.length_append, List.length_cons] at *
    omega

end Chars

/-- The text with the calls of one function answered for an input. -/
def answerCalls? (t : Theme) (opening : String) (input : CallInput) (text : String) :
    Option CallAnswer :=
  (Chars.answerCalls? opening.toList (answerCall? t input ∘ String.ofList) text.toList).map
    fun (text, ratio) => ⟨String.ofList text, ratio⟩

/-- Which of the value and the modifier some call has used. -/
structure CallUsage where
  value : Bool := false
  modifier : Bool := false
  deriving DecidableEq, Repr

def CallUsage.union (a b : CallUsage) : CallUsage := ⟨a.value || b.value, a.modifier || b.modifier⟩

/-- The text of a declaration with the calls about the modifier answered. -/
def answerModifier (t : Theme) (modifier : Option CallInput) (usage : CallUsage) (text : String) :
    Option String × CallUsage :=
  if Text.containsPhrase text "--modifier(" then
    match modifier.bind (answerCalls? t "--modifier(" · text) with
    | some a => (some a.text, { usage with modifier := true })
    | none => (none, usage)
  else (some text, usage)

/-- The text of a declaration with its calls answered, and what they used. What the calls about the
value have used counts even if one about the modifier is not answered. -/
def answerText (t : Theme) (value : CallInput) (modifier : Option CallInput) (text : String) :
    Option String × CallUsage :=
  if Text.containsPhrase text "--value(" then
    match answerCalls? t "--value(" value text with
    | some a => answerModifier t modifier ⟨true, a.isRatio⟩ a.text
    | none => (none, {})
  else answerModifier t modifier {} text

mutual

/-- The node with its calls answered, or nothing, and what the calls used. -/
def Node.answer (t : Theme) (value : CallInput) (modifier : Option CallInput) :
    Node → List Node × CallUsage
  | .decl property text important =>
    let (text, usage) := answerText t value modifier text
    ((text.map (.decl property · important)).toList, usage)
  | .rule selector ns =>
    let (ns, usage) := answerEach t value modifier ns
    ([.rule selector ns], usage)
  | .atRule name params ns =>
    let (ns, usage) := answerEach t value modifier ns
    ([.atRule name params ns], usage)
  | n => ([n], {})

def answerEach (t : Theme) (value : CallInput) (modifier : Option CallInput) :
    List Node → List Node × CallUsage
  | [] => ([], {})
  | n :: ns =>
    let (new, usage) := n.answer t value modifier
    let (rest, usage') := answerEach t value modifier ns
    (new ++ rest, usage.union usage')

end

/-- The nodes that a declared utility gives for a candidate. -/
def customNodes? (t : Theme) (body : List Node) (c : Candidate) : Option (List Node) := do
  let value ← c.value?
  let (ns, usage) := answerEach t value (c.modifier?.map (·.input)) body
  if c.negative || !usage.value || (c.modifier?.isSome && !usage.modifier) then none
  else return ns

end UtilityCss
