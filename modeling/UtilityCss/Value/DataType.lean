/-!
# Types of values

The kinds of value that an arbitrary value in square brackets may be of, with the names they are
asked for by.
-/

namespace UtilityCss

inductive DataType where
  | color | length | percentage | number | integer | ratio | url | image | position | bgSize
  | lineWidth | angle | familyName | genericName | absoluteSize | relativeSize | vector | any
  deriving DecidableEq, Repr

namespace DataType

def all : List DataType :=
  [color, length, percentage, number, integer, ratio, url, image, position, bgSize, lineWidth,
   angle, familyName, genericName, absoluteSize, relativeSize, vector, any]

def name : DataType → String
  | color => "color"
  | length => "length"
  | percentage => "percentage"
  | number => "number"
  | integer => "integer"
  | ratio => "ratio"
  | url => "url"
  | image => "image"
  | position => "position"
  | bgSize => "bg-size"
  | lineWidth => "line-width"
  | angle => "angle"
  | familyName => "family-name"
  | genericName => "generic-name"
  | absoluteSize => "absolute-size"
  | relativeSize => "relative-size"
  | vector => "vector"
  | any => "any"

def ofName? (s : String) : Option DataType := all.find? (·.name == s)

end DataType

end UtilityCss
