import UtilityCss.Variant.Basic

/-!
# Candidates

A candidate is one reading of a class name such as `md:hover:bg-red-500/50!`: the variants, the
important mark, and a utility with its value and modifier or an arbitrary property.
-/

namespace UtilityCss

inductive CandidateValue where
  /-- A plain name. `w-1/2` has the value `1` and the fraction `1/2`. -/
  | named (text : String) (fraction : Option String)
  /-- A value in brackets, decoded, with the type named in front of it. -/
  | arbitrary (text : String) (hint : Option String)
  deriving DecidableEq, Repr

inductive CandidateForm where
  | static (root : String) (negative : Bool)
  | functional (root : String) (value : Option CandidateValue) (modifier : Option Argument)
    (negative : Bool)
  /-- An arbitrary property such as `[color:red]`. -/
  | property (name value : String) (modifier : Option Argument)
  deriving DecidableEq, Repr

structure Candidate where
  form : CandidateForm
  /-- In the order in which they are written, the outermost first. -/
  variants : List Variant
  important : Bool
  /-- The class name. -/
  raw : String
  deriving DecidableEq, Repr

namespace Candidate

def negative (c : Candidate) : Bool :=
  match c.form with
  | .static _ negative => negative
  | .functional _ _ _ negative => negative
  | .property _ _ _ => false

def value? (c : Candidate) : Option CandidateValue :=
  match c.form with
  | .functional _ value _ _ => value
  | _ => none

def modifier? (c : Candidate) : Option Argument :=
  match c.form with
  | .functional _ _ modifier _ => modifier
  | .property _ _ modifier => modifier
  | .static _ _ => none

end Candidate

end UtilityCss
