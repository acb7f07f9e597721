/-!
# Faults of a stylesheet's text
-/

namespace UtilityCss

inductive SyntaxError where
  /-- A closing brace stands where no block is open. -/
  | unexpectedClose (near : String)
  /-- An at-sign is not followed by a name. -/
  | badAtRule (near : String)
  /-- A statement that is no at-rule has no colon. -/
  | notDeclaration (found : String)
  | noProperty
  /-- The text ends inside the block of the given selector or at-rule. -/
  | unclosedBlock (context : String)
  | unterminatedComment
  | unterminatedString
  deriving DecidableEq, Repr

def SyntaxError.message : SyntaxError → String
  | unexpectedClose near => "CSS syntax error: unexpected `\x7d` near: " ++ near
  | badAtRule near => "CSS syntax error: invalid at-rule: " ++ near
  | notDeclaration found => "CSS syntax error: expected declaration, found: " ++ found
  | noProperty => "CSS syntax error: declaration without property"
  | unclosedBlock context => "missing closing brace for `" ++ context ++ "`"
  | unterminatedComment => "unterminated comment"
  | unterminatedString => "unterminated string"

end UtilityCss
