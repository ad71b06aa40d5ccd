import PlainScript.Grammar.Tokens

/-!
# Type annotations and modifiers

What both typed dialects add to a binding, a parameter or a member: modifiers in front of it, and a
question mark and a type after it.
-/

namespace PlainScript.Grammar

open Parse

def isTyped : Parse Bool := return (← read).dialect.typescript || (← read).dialect.flow

def typeAnnotation : Parse Unit := inType 0 do
  expect .colon
  reach (if (← read).dialect.typescript then .tsType else .flowType)

def optionalTypeAnnotation : Parse Unit := do
  if ← isAt .colon then typeAnnotation

def listItemTypes : Parse Unit := do
  if ← isTyped then
    inType 0 do
      skip .question
      optionalTypeAnnotation

/-- What may follow an item in parentheses, in case the parentheses hold parameters. -/
def parenthesizedItemTypes : Parse Unit := do
  if ← isTyped then
    skipAsType .question
    optionalTypeAnnotation

def variableTypes : Parse Unit := do
  if (← read).dialect.typescript then
    inType 0 do
      unless ← afterLineBreak do
        skip .bang
      optionalTypeAnnotation
  else if (← read).dialect.flow then
    optionalTypeAnnotation

def isLiteralPropertyName (k : TokenKind) : Bool :=
  [.name, .string, .number, .bigint, .decimal].contains k || k.isReserved

def modifierKind? : SoftKeyword → Option TokenKind
  | .readonlyName => some .readonlyModifier
  | .abstractName => some .abstractModifier
  | .staticName => some .staticModifier
  | .publicName => some .publicModifier
  | .privateName => some .privateModifier
  | .protectedName => some .protectedModifier
  | .overrideName => some .overrideModifier
  | .declareName => some .declareModifier
  | _ => none

/-- Consumes the current lexeme if what follows it can follow a modifier. -/
def eatAsModifier : Parse Bool := do
  let p ← snapshot
  next
  let k ← kind
  let follows := [.bracketOpen, .braceOpen, .star, .ellipsis, .hash].contains k ||
    isLiteralPropertyName k
  let follows := follows && !(← afterLineBreak)
  unless follows do
    restore p
  pure follows

def eatModifier (allowed : List SoftKeyword) : Parse Bool := do
  let word ← keyword
  if (← isAt .name) && allowed.contains word then
    if ← eatAsModifier then
      if let some k := modifierKind? word then setKind k
      return true
  return false

def modifiers (allowed : List SoftKeyword) : Parse Unit := loop (eatModifier allowed)

/-- A sign that says how a property or a type parameter may vary. -/
def variance : Parse Unit := do
  if ← isAtAny [.plus, .minus] then skipAsType (← kind)

-- Rules that only put others together.
attribute [reducible] eatAsModifier eatModifier isTyped listItemTypes modifiers
  optionalTypeAnnotation parenthesizedItemTypes typeAnnotation variableTypes variance

end PlainScript.Grammar
