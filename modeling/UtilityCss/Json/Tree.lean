import UtilityCss.Json.Token
import UtilityCss.Json.Value

/-!
# Reading of JSON texts

`JsonTree.read?` tells whether a text has the form of JSON and builds its tree from the tokens. The
strings and numbers in the tree are not interpreted until `JsonTree.value?` does it, which also
limits how deep lists and objects may be nested.
-/

namespace UtilityCss

inductive JsonTree where
  | null
  | bool (b : Bool)
  | number (n : JsonNumeral)
  | string (units : List JsonUnit)
  | list (items : List JsonTree)
  /-- The fields in the order of the text; a name may stand several times. -/
  | object (fields : List (List JsonUnit × JsonTree))
  deriving Inhabited, Repr

/-- A list or an object that is open, with what precedes the value that is read in it, last first. -/
inductive JsonFrame where
  | list (items : List JsonTree)
  | field (fields : List (List JsonUnit × JsonTree)) (name : List JsonUnit)

mutual

/-- Reads a value inside open frames, and all that follows. -/
def readJsonValue? (opened : List JsonFrame) : List JsonToken → Option JsonTree
  | .null :: ts => closeJsonValue? opened .null ts
  | .bool b :: ts => closeJsonValue? opened (.bool b) ts
  | .number n :: ts => closeJsonValue? opened (.number n) ts
  | .string units :: ts => closeJsonValue? opened (.string units) ts
  | .openList :: .closeList :: ts => closeJsonValue? opened (.list []) ts
  | .openList :: ts => readJsonValue? (.list [] :: opened) ts
  | .openObject :: .closeObject :: ts => closeJsonValue? opened (.object []) ts
  | .openObject :: .string name :: .colon :: ts => readJsonValue? (.field [] name :: opened) ts
  | _ => none

/-- Goes on behind a value: the innermost frame goes on or closes, and behind the value outside all
frames nothing may follow. -/
def closeJsonValue? : List JsonFrame → JsonTree → List JsonToken → Option JsonTree
  | [], v, [] => some v
  | .list items :: opened, v, .comma :: ts => readJsonValue? (.list (v :: items) :: opened) ts
  | .list items :: opened, v, .closeList :: ts =>
    closeJsonValue? opened (.list (v :: items).reverse) ts
  | .field fields name :: opened, v, .comma :: .string next :: .colon :: ts =>
    readJsonValue? (.field ((name, v) :: fields) next :: opened) ts
  | .field fields name :: opened, v, .closeObject :: ts =>
    closeJsonValue? opened (.object ((name, v) :: fields).reverse) ts
  | _, _, _ => none

end

namespace JsonTree

/-- The tree of a text that has the form of JSON. -/
def read? (text : String) : Option JsonTree :=
  (Chars.jsonTokens? text.toList).bind (readJsonValue? [])

/-- How deep lists and objects may be nested. -/
def nestingLimit : Nat := 127

/-- The text of a string. -/
def text? : JsonTree → Option String
  | string units => unitsText? units
  | _ => none

end JsonTree

mutual

/-- The value of a tree, in which lists and objects may be nested `depth` times. -/
def JsonTree.value? : Nat → JsonTree → Option JsonValue
  | _, .null => some .null
  | _, .bool b => some (.bool b)
  | _, .number n => n.value?.map .number
  | _, .string units => (unitsText? units).map .string
  | 0, .list _ | 0, .object _ => none
  | depth + 1, .list items => (itemValues? depth items).map .list
  | depth + 1, .object fields => (fieldValues? depth fields).map fun fs => .object (sortFields fs)

def itemValues? (depth : Nat) : List JsonTree → Option (List JsonValue)
  | [] => some []
  | t :: ts => do
    let v ← t.value? depth
    let vs ← itemValues? depth ts
    return v :: vs

/-- The fields of an object in the order of the text. -/
def fieldValues? (depth : Nat) : List (List JsonUnit × JsonTree) → Option (List (String × JsonValue))
  | [] => some []
  | (units, t) :: fs => do
    let name ← unitsText? units
    let v ← t.value? depth
    let vs ← fieldValues? depth fs
    return (name, v) :: vs

end

/-- The value of a JSON text. -/
def JsonValue.read? (text : String) : Option JsonValue :=
  (JsonTree.read? text).bind (JsonTree.value? JsonTree.nestingLimit)

end UtilityCss
