import UtilityCss.Json.Number
import UtilityCss.Text.Escape

/-!
# JSON values

The fields of an object are kept in the order of their names, each name once.
-/

namespace UtilityCss

inductive JsonValue where
  | null
  | bool (b : Bool)
  | number (n : JsonNumber)
  | string (s : String)
  | list (items : List JsonValue)
  | object (fields : List (String × JsonValue))
  deriving Inhabited, Repr

/-- Sets a field in a list of fields that is ordered by name. -/
def setField {α : Type} (name : String) (value : α) : List (String × α) → List (String × α)
  | [] => [(name, value)]
  | f :: fs =>
    if f.1 == name then (name, value) :: fs
    else if name < f.1 then (name, value) :: f :: fs
    else f :: setField name value fs

/-- The fields in the order of their names. Of several with one name the last one counts. -/
def sortFields {α : Type} (fields : List (String × α)) : List (String × α) :=
  fields.foldl (fun sorted (name, value) => setField name value sorted) []

namespace Chars

/-- A character in a JSON string. -/
def escapeJson (c : Char) : List Char :=
  match c with
  | '"' => ['\\', '"']
  | '\\' => ['\\', '\\']
  | '\n' => ['\\', 'n']
  | '\r' => ['\\', 'r']
  | '\t' => ['\\', 't']
  | c =>
    if c.toNat == 8 then ['\\', 'b']
    else if c.toNat == 12 then ['\\', 'f']
    else if c.toNat < 0x20 then
      let digits := hexDigits c.toNat
      '\\' :: 'u' :: List.replicate (4 - digits.length) '0' ++ digits
    else [c]

end Chars

/-- A text as a JSON string. -/
def quoteJson (s : String) : String :=
  "\"" ++ String.ofList (s.toList.flatMap Chars.escapeJson) ++ "\""

mutual

/-- The JSON text of a value, without blanks. -/
def JsonValue.text : JsonValue → String
  | .null => "null"
  | .bool b => if b then "true" else "false"
  | .number n => n.text
  | .string s => quoteJson s
  | .list items => "[" ++ ",".intercalate (itemTexts items) ++ "]"
  | .object fields => "\x7b" ++ ",".intercalate (fieldTexts fields) ++ "\x7d"

def itemTexts : List JsonValue → List String
  | [] => []
  | v :: vs => v.text :: itemTexts vs

def fieldTexts : List (String × JsonValue) → List String
  | [] => []
  | (name, v) :: fs => (quoteJson name ++ ":" ++ v.text) :: fieldTexts fs

end

end UtilityCss
