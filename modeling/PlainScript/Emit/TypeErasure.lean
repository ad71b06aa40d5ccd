import PlainScript.Emit.Cursor

/-!
# Erasure of types

The parser has marked the tokens that belong to types. They are removed, and so are the modifiers
that have a meaning for types only.
-/

namespace PlainScript.Emit

/-- Removes the return type of an arrow function. The arrow moves up to the parenthesis, since no
line may end between the two. -/
def eraseArrowReturnType : Emit Bool := do
  let v ← view
  if !(v.isAt [.parenClose, .colon] && (v.ahead 1).isType) then return false
  let stop := v.tape.skip (·.isType) (v.index + 1)
  if v.tape.kind stop != .arrow then return false
  removeFirst
  removeTo stop
  replaceTrimmed ") =>"
  return true

/-- Removes the type parameters of an asynchronous arrow function. The parenthesis moves up to
`async`, since no line may end between the two. -/
def eraseAsyncArrowParameters : Emit Bool := do
  let v ← view
  if !(v.tape.hasAsync v.index && (v.ahead 1).kind == .less && (v.ahead 1).isType) then return false
  let stop := v.tape.skip (·.isType) (v.index + 1)
  if v.tape.kind stop != .parenOpen then return false
  replace "async ("
  removeFirst
  removeTo stop
  remove
  processBalanced
  processToken
  return true

def eraseTypes : Emit Bool := do
  if !(← view).token.isType then return false
  removeFirst
  loopWhile (fun v => v.token.isType && !v.isAtEnd) remove
  return true

/-- Removes types wherever they stand. -/
def typePass : Emit Bool := do
  if ← eraseArrowReturnType then return true
  if ← eraseAsyncArrowParameters then return true
  eraseTypes

def modifierPass : Emit Bool := do
  if (← view).isAtOneOf [.publicModifier, .protectedModifier, .privateModifier, .abstractModifier,
      .readonlyModifier, .overrideModifier, .nonNullAssertion] then
    removeFirst
    return true
  return false

-- Rules that only put others together.
attribute [reducible] eraseTypes modifierPass

end PlainScript.Emit
