import PlainScript.Source.LineIndex
import PlainScript.Token.Kind

/-!
# Syntax errors

A syntax error is a cause and the offset it points at. Its wording is fixed by `Cause.message`.
`LocatedError` adds the line and the column, both counted from one.
-/

namespace PlainScript

namespace SyntaxError

inductive Cause where
  | unexpectedToken
  | expected (kind : TokenKind)
  | expectedSemicolon
  | unexpectedCharacter (c : Char)
  | unterminatedString
  | unterminatedTemplate
  | unterminatedComment
  | unterminatedRegexp
  | unterminatedJsxContents
  | unexpectedEnd
  | destructuredImport
  /-- The value of an attribute is neither an expression, an element nor a string. -/
  | attributeValue
  /-- A namespace that is not ambient holds more than declarations that are erased. -/
  | namespaceWithValues
deriving DecidableEq, Repr

def Cause.message : Cause → String
  | .unexpectedToken => "Unexpected token"
  | .expected kind => "Unexpected token, expected \"" ++ kind.label ++ "\""
  | .expectedSemicolon => "Unexpected token, expected \";\""
  | .unexpectedCharacter c => "Unexpected character '" ++ String.singleton c ++ "'"
  | .unterminatedString => "Unterminated string constant"
  | .unterminatedTemplate => "Unterminated template"
  | .unterminatedComment => "Unterminated comment"
  | .unterminatedRegexp => "Unterminated regular expression"
  | .unterminatedJsxContents => "Unterminated JSX contents"
  | .unexpectedEnd => "Unexpectedly reached the end of input."
  | .destructuredImport =>
    "ES2015 named imports do not support destructuring (use ES5 syntax instead)"
  | .attributeValue => "JSX value should be either an expression or a quoted JSX text"
  | .namespaceWithValues => "Non-declare namespaces with values are not supported"

end SyntaxError

structure SyntaxError where
  cause : SyntaxError.Cause
  pos : Nat
deriving DecidableEq, Repr

/-- A syntax error with its line and column, both counted from one. -/
structure LocatedError where
  cause : SyntaxError.Cause
  pos : Nat
  line : Nat
  column : Nat
deriving DecidableEq, Repr

namespace LocatedError

/-- Finds the line and column of an error. An offset past the end counts as the end. -/
def ofSyntaxError (s : Source) (e : SyntaxError) : LocatedError :=
  let pos := min e.pos s.size
  let place := ((LineIndex.ofSource s).position? pos).getD {}
  { cause := e.cause, pos, line := place.line + 1, column := place.column + 1 }

def message (e : LocatedError) : String :=
  e.cause.message ++ " (" ++ toString e.line ++ ":" ++ toString e.column ++ ")"

end LocatedError

end PlainScript
