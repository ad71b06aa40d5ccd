import PlainScript.Grammar.Call

/-!
# Object literals and object patterns

The braces of an object and the names of its properties share a context number.
-/

namespace PlainScript.Grammar

open Parse

/-- A method of an object, from after its name or its `get` or `set` word on. Says whether there was
one. -/
def objectMethod (isPattern : Bool) (contextId : Nat) : Parse Bool := do
  let functionStart ← startPos
  let k ← kind
  if k == .parenOpen then
    if isPattern then unexpected
    method functionStart false
    return true
  if !isPattern && ([.string, .number, .bracketOpen, .name].contains k || k.isReserved) then
    propertyName contextId
    method functionStart false
    return true
  return false

/-- The value of a property, after its name. Without a colon the name is also the value, and in a
pattern it is the name that is declared. -/
def objectProperty (isPattern isBlockScoped : Bool) : Parse Unit := do
  if ← eat .colon then
    if isPattern then bindingWithDefault isBlockScoped else reach (.assignment false false)
  else
    let depth := (← get).scopeDepth
    setRole (if isPattern then shorthandRole depth isBlockScoped else .objectShorthand)
    optionalDefault

def propertyValue (isPattern isBlockScoped : Bool) (contextId : Nat) : Parse Unit := do
  if (← read).dialect.typescript then TypeScript.optionalTypeParameters
  else if (← read).dialect.flow then
    if ← isAt .less then
      Flow.typeParameters
      unless ← isAt .parenOpen do
        unexpected
  unless ← objectMethod isPattern contextId do
    objectProperty isPattern isBlockScoped

/-- The name of a property of an object literal, with what stands before it. -/
def literalPropertyName (contextId : Nat) : Parse Unit := do
  let isGenerator ← eat .star
  if ← isAtName .asyncName then
    if isGenerator then unexpected
    identifier
    unless ← isAtAny [.colon, .parenOpen, .braceClose, .equals, .comma] do
      skip .star
      propertyName contextId
  else propertyName contextId

def object (isPattern isBlockScoped : Bool) : Parse Unit := do
  let contextId ← freshContext
  next
  setContext contextId
  discard <| iterate true fun isFirst => do
    if ← eat .braceClose then return .done false
    if ← hasError then return .done false
    unless isFirst do
      expect .comma
      if ← eat .braceClose then return .done false
    if ← isAt .ellipsis then
      let spreadStart ← tokenIndex
      spread
      if isPattern then
        if (← tokenIndex) == spreadStart + 2 then markDeclared isBlockScoped
        if ← eat .braceClose then return .done false
      return .yield false
    if isPattern then propertyName contextId else literalPropertyName contextId
    propertyValue isPattern isBlockScoped contextId
    return .yield false
  setContext contextId

-- Rules that only put others together.
attribute [reducible] literalPropertyName objectMethod objectProperty propertyValue

end PlainScript.Grammar
