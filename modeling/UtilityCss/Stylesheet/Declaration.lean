import UtilityCss.Stylesheet.Node
import UtilityCss.Stylesheet.Prelude

/-!
# Declarations as text

A declaration is a property, a colon and a value, which may end in an important mark: `!` and
`important` in any case, with blanks before either. The value of a custom property is kept as it
is written; in any other value white space outside quotes is collapsed.
-/

namespace UtilityCss

namespace Chars

/-- A custom property's name begins with two dashes. -/
def isCustomProperty (property : List Char) : Bool := "--".toList.isPrefixOf property

/-- The value in front of an important mark, if the value ends in one. -/
def beforeImportant? (value : List Char) : Option (List Char) :=
  match "tnatropmi".toList.isPrefixOf? ((trimEnd value).reverse.map Char.toLower) with
  | none => none
  | some _ =>
    match (trimEnd ((trimEnd value).take ((trimEnd value).length - 9))).reverse with
    | '!' :: s => some s.reverse
    | _ => none

end Chars

/-- Reads the text of a declaration. -/
def readDeclaration (text : List Char) : Except SyntaxError Node :=
  let text := Chars.stripComments .plain text
  match Chars.cutAt (· == ':') text with
  | none => .error (.notDeclaration (Text.excerpt (Chars.trim text)))
  | some (front, back) =>
    let property := Chars.trim front
    let value := Chars.trim back
    if property.isEmpty then .error .noProperty
    else
      let important := Chars.beforeImportant? value
      let value := (important.map Chars.trimEnd).getD value
      let value :=
        if Chars.isCustomProperty property then value else Chars.collapseBlanks none false value
      .ok (.decl (String.ofList property) (String.ofList value) important.isSome)

end UtilityCss
