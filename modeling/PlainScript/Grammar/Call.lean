import PlainScript.Grammar.Function

/-!
# Lists of expressions

Arguments of calls, elements of list literals, templates, decorators, and expressions in
parentheses.
-/

namespace PlainScript.Grammar

open Parse

def spread : Parse Unit := do
  next
  reach (.assignment false false)

/-- An element of a list of expressions. A lone `?` stands for an argument that is left open. -/
def listItem (allowHoles : Bool) : Parse Unit := do
  if ← (pure allowHoles <&&> isAt .comma) then pure ()
  else if ← isAt .ellipsis then
    spread
    parenthesizedItemTypes
  else if ← isAt .question then next
  else reach (.assignment false true)

def expressionList (close : TokenKind) (allowHoles : Bool) : Parse Unit :=
  commaList close (listItem allowHoles)

def callArguments : Parse Unit := expressionList .parenClose false

def parenthesizedExpression : Parse Unit := do
  expect .parenOpen
  reach (.expression false)
  expect .parenClose

def template : Parse Unit := do
  nextInTemplate
  nextInTemplate
  loopUntil .backquote do
    expect .dollarBrace
    reach (.expression false)
    nextInTemplate
    nextInTemplate
  next

def decorator : Parse Unit := do
  next
  if ← eat .parenOpen then
    reach (.expression false)
    expect .parenClose
  else
    identifier
    qualifiedRest
    if (← read).dialect.typescript then
      if ← isAtAny [.less, .shiftLeft] then TypeScript.splitTypeArguments
    if ← eat .parenOpen then callArguments

def decorators : Parse Unit := loopWhile (isAt .atSign) decorator

-- Rules that only put others together.
attribute [reducible] decorator decorators expressionList listItem parenthesizedExpression spread
  template

end PlainScript.Grammar
