import PlainScript.Token.Kind

/-!
# Failures of the passes after the parser

The passes after the parser rely on the shape of the token list. Where it does not have the shape
they need, they fail with a `StructureError`.
-/

namespace PlainScript

inductive StructureError where
  | expectedToken (kind : TokenKind)
  | unexpectedToken (kind : TokenKind)
  | unexpectedSpecifier (index : Nat)
  | endOfInput
  | unfinished
  | importPathMissing
  | starExportPathMissing
  | importStatementPathMissing
  | exportEndMissing
  | classNameMissing
  | functionNameMissing
  | classContextMissing
  | classBodyContextMissing
  | classBraceContextMissing
  | classWordContextMissing
  | classHeaderUnfinished
  | classBodyUnfinished
  | fieldEndMissing
  | parametersContextMissing
  | parameterNameMissing
  | superCallContextMissing
  | computedNameContextMissing
  | dynamicImportContextMissing
  | dynamicImportUnfinished
  | exportNotRecognized
  | exportUnfinished
  | assignmentEndMissing
  | exportReplacementMissing (name : String)
  | exportAssignmentMissing
  | unexpectedOperator (text : String)
  | importSpecifiersUnfinished
  | exportSpecifiersUnfinished
  | elementTagUnfinished
  | elementCloseUnfinished
  | unexpectedChild
  | objectContextMissing
  | objectUnfinished
  | enumUnfinished
  | enumValueMissing
  | enumKeyMissing
  | enumValueEndMissing
  | unexpectedSubscript
  | chainEndMissing
  | chainStartMissing
deriving DecidableEq, Repr

namespace StructureError

def message : StructureError → String
  | .expectedToken kind => "Expected token " ++ kind.label
  | .unexpectedToken kind => "Unexpected token: " ++ kind.label
  | .unexpectedSpecifier index => "Unexpected import/export specifier at " ++ Nat.repr index
  | .endOfInput => "Unexpectedly reached end of input."
  | .unfinished => "Tried to finish processing tokens before reaching the end."
  | .importPathMissing => "Expected string token at the end of import statement."
  | .starExportPathMissing => "Expected string token at the end of star export statement."
  | .importStatementPathMissing => "Expected import path."
  | .exportEndMissing => "Expected non-null rhsEndIndex on export token."
  | .classNameMissing => "Expected identifier for exported class name."
  | .functionNameMissing => "Expected identifier for exported function name."
  | .classContextMissing => "Expected class to have a context ID."
  | .classBodyContextMissing => "Expected non-null context ID on class."
  | .classBraceContextMissing => "Expected non-null class context ID on class open-brace."
  | .classWordContextMissing => "Expected context ID on class token."
  | .classHeaderUnfinished => "Unexpected end of class header."
  | .classBodyUnfinished => "Unexpected end of class body."
  | .fieldEndMissing => "Expected rhsEndIndex on class field assignment."
  | .parametersContextMissing => "Expected context ID on open-paren starting constructor params."
  | .parameterNameMissing => "Expected identifier after access modifiers in constructor arg."
  | .superCallContextMissing => "Expected a context ID on the super call"
  | .computedNameContextMissing => "Expected class context ID on computed name open bracket."
  | .dynamicImportContextMissing => "Expected context ID on dynamic import invocation."
  | .dynamicImportUnfinished => "Unexpected end of dynamic import."
  | .exportNotRecognized => "Unrecognized export syntax."
  | .exportUnfinished => "Unexpected end of export declaration."
  | .assignmentEndMissing => "Expected = token with an end index."
  | .exportReplacementMissing name =>
    "Expected a replacement for " ++ name ++ " in `export var` syntax."
  | .exportAssignmentMissing => "Expected = in export declaration."
  | .unexpectedOperator text => "Unexpected operator: " ++ text
  | .importSpecifiersUnfinished => "Unexpected end of import specifiers."
  | .exportSpecifiersUnfinished => "Unexpected end of export specifiers."
  | .elementTagUnfinished => "Expected either /> or > at the end of the tag."
  | .elementCloseUnfinished => "Unexpected end of JSX closing tag."
  | .unexpectedChild => "Unexpected token when processing JSX children."
  | .objectContextMissing => "Expected non-null context ID on object open-brace."
  | .objectUnfinished => "Unexpected end of input when processing React class."
  | .enumUnfinished => "Unexpected end of enum body."
  | .enumValueMissing => "Enum member must have initializer."
  | .enumKeyMissing => "Expected name or string at beginning of enum element."
  | .enumValueEndMissing => "Expected rhsEndIndex on enum assign."
  | .unexpectedSubscript => "Unexpected subscript operator in optional chain."
  | .chainEndMissing => "Reached the end of the code while finding the end of the access chain."
  | .chainStartMissing =>
    "Reached the start of the code while finding the start of the access chain."

end StructureError

inductive Failure where
  | structureError (error : StructureError)
  /-- The bound on the number of steps was too small, which never happens. -/
  | budget
deriving DecidableEq, Repr

end PlainScript
