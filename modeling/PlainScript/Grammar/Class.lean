import PlainScript.Grammar.Expression

/-!
# Classes

The `class` word and the braces of the body share a context number, and so do the names of the
members. A class expression has a scope for its own name.
-/

namespace PlainScript.Grammar

open Parse

/-- Whether what follows the name of a member makes it a field. -/
def isAtFieldRest : Parse Bool :=
  isAtAny [.equals, .semicolon, .braceClose, .bang, .colon]

/-- Whether what follows the name of a member makes it a method. -/
def isAtMethodRest : Parse Bool := isAtAny [.parenOpen, .less]

/-- A method, from its type parameters on. -/
def classMethod (functionStart : Nat) (isConstructor : Bool) : Parse Unit := do
  optionalTypeParameters
  method functionStart isConstructor

/-- A field, from after its name on. -/
def classField : Parse Unit := do
  if (← read).dialect.typescript then skipAsType .bang
  if ← isTyped then optionalTypeAnnotation
  if ← isAt .equals then
    let equalsIndex ← tokenIndex
    next
    reach (.assignment false false)
    markRhsEnd equalsIndex
  semicolon

def memberOptionalMark : Parse Unit := do
  if (← read).dialect.typescript then skipAsType .question

/-- Modifiers after `static`, and an index signature. An index signature is erased with the modifiers
before it. Says whether there was one. -/
def typeScriptMemberStart (isStatic : Bool) : Parse Bool := do
  let afterStatic ← tokenIndex
  modifiers [.abstractName, .readonlyName, .declareName, .staticName, .overrideName]
  let modifiersEnd ← tokenIndex
  if ← TypeScript.indexSignature then
    markTypes (if isStatic then afterStatic - 1 else afterStatic) modifiersEnd
    return true
  return false

/-- A member that starts with a name, which may turn out to be `async`, `get`, `set` or
`accessor`. -/
def namedMember (memberStart contextId : Nat) : Parse Unit := do
  propertyName contextId
  let word := ((← lastToken?).map (·.keyword)).getD .ordinary
  memberOptionalMark
  if ← isAtMethodRest then classMethod memberStart (word == .constructorName)
  else if ← isAtFieldRest then classField
  else if ← (pure (word == .asyncName) <&&> (return !(← endsStatement))) then
    setKind .asyncModifier
    skip .star
    propertyName contextId
    memberOptionalMark
    classMethod memberStart false
  else if ← (pure (word == .getName || word == .setName) <&&>
      (return !((← endsStatement) && (← isAt .star)))) then
    setKind (if word == .getName then .getModifier else .setModifier)
    propertyName contextId
    classMethod memberStart false
  else if ← (pure (word == .accessorName) <&&> (return !(← endsStatement))) then
    propertyName contextId
    classField
  else if ← endsStatement then classField
  else unexpected

def memberAfterStatic (memberStart : Nat) (isStatic : Bool) (contextId : Nat) : Parse Unit := do
  if (← read).dialect.typescript then
    if ← typeScriptMemberStart isStatic then return
  if ← eat .star then
    propertyName contextId
    classMethod memberStart false
  else namedMember memberStart contextId

/-- A member of a class. `static` may be the name of the member, a modifier, or the start of a
static block, which then carries the context number of the class. -/
def classMember (memberStart contextId : Nat) : Parse Unit := do
  if (← read).dialect.typescript then
    modifiers [.declareName, .publicName, .protectedName, .privateName, .overrideName]
  if ← isAtName .staticName then
    identifier
    if ← isAtMethodRest then classMethod memberStart false
    else if ← isAtFieldRest then classField
    else
      setKind .staticModifier
      if ← isAt .braceOpen then
        setContext contextId
        reach (.block false 0)
      else memberAfterStatic memberStart true contextId
  else memberAfterStatic memberStart false contextId

def classBody (contextId : Nat) : Parse Unit := do
  expect .braceOpen
  loopUntilEaten .braceClose do
    if ← eat .semicolon then return
    if ← isAt .atSign then
      decorator
      return
    classMember (← startPos) contextId

def classHead (isStatement optionalName : Bool) : Parse Unit := do
  let mayBeUnnamed := (← read).dialect.typescript && (!isStatement || optionalName)
  unless ← (pure mayBeUnnamed <&&> spells .implementsName) do
    if ← isAt .name then bindingIdentifier true
    optionalTypeParameters

def classHeritage : Parse Unit := do
  let hasBase ← eat .extendsWord
  if hasBase then discard operandWithSubscripts
  let dialect := (← read).dialect
  if dialect.typescript then
    if hasBase && (← isAtAny [.less, .shiftLeft]) then TypeScript.splitTypeArguments
    if ← eatName .implementsName then
      setKind .implementsModifier
      inType 1 TypeScript.heritage
  else if dialect.flow then
    if hasBase then Flow.optionalTypeArguments
    if ← spells .implementsName then
      inType 0 do
        next
        setKind .implementsModifier
        loop do
          identifier
          Flow.optionalTypeArguments
          eat .comma

/-- A class from its `class` word on. -/
def classDefinition (isStatement optionalName : Bool) : Parse Unit := do
  let contextId ← freshContext
  next
  annotateLast fun t => { t with contextId? := some contextId, isExpression := !isStatement }
  let nameStart ← tokenIndex
  unless isStatement do
    openScope
  classHead isStatement optionalName
  classHeritage
  let openBrace ← tokenIndex
  classBody contextId
  unless ← hasError do
    annotateAt openBrace ({ · with contextId? := some contextId })
    setContext contextId
    unless isStatement do
      closeScope nameStart false

-- Rules that only put others together.
attribute [reducible] classDefinition classField classMember classMethod isAtFieldRest
  isAtMethodRest memberAfterStatic memberOptionalMark namedMember typeScriptMemberStart

end PlainScript.Grammar
