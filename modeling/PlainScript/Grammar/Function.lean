import PlainScript.Grammar.FlowType
import PlainScript.Grammar.TypeScriptType

/-!
# Functions

Parameters and bodies of functions, methods and arrow functions. A function expression has a scope
for its own name, which is visible only inside the function.
-/

namespace PlainScript.Grammar

open Parse

def optionalTypeParameters : Parse Unit := do
  if (← read).dialect.typescript then TypeScript.optionalTypeParameters
  else if (← read).dialect.flow then Flow.optionalTypeParameters

def functionParameters (allowModifiers : Bool) (contextId : Nat) : Parse Unit := do
  optionalTypeParameters
  expect .parenOpen
  setContextIfAny contextId
  bindingList .parenClose false false allowModifiers contextId
  setContextIfAny contextId

/-- The body of a function. An arrow function may have an expression for its body. -/
def functionBody (allowExpression : Bool) (contextId : Nat) : Parse Unit := do
  if allowExpression && !(← isAt .braceOpen) then reach (.assignment false false)
  else reach (.block true contextId)

/-- The number of tokens to erase with a signature that has no body: those from where the function
starts, and an `export` or `export default` before them. -/
def overloadLength (tokens : Array Token) (functionStart : Nat) : Nat :=
  let belongs (t : Token) :=
    functionStart ≤ t.start || t.kind == .defaultWord || t.kind == .exportWord
  (tokens.toList.reverse.takeWhile belongs).length

/-- The return type and the body of a function that starts at an offset. In TypeScript a function
without a body only declares a signature. -/
def functionFinish (functionStart contextId : Nat) : Parse Unit := do
  if (← read).dialect.typescript then
    TypeScript.optionalReturnType
    if ← (return !(← isAt .braceOpen)) <&&> endsStatement then
      let stop ← tokenIndex
      markTypes (stop - overloadLength (← get).tokens functionStart) stop
      return
  else if (← read).dialect.flow then
    if ← isAt .colon then Flow.returnType
  functionBody false contextId

def arrowBody (startIndex : Nat) : Parse Unit := do
  functionBody true 0
  closeScope startIndex true

/-- The arrow of an arrow function, with a return type before it. Says whether there was one. -/
def arrow : Parse Bool := do
  if ← isAt .colon then
    if (← read).dialect.typescript then
      let p ← snapshot
      TypeScript.returnType .colon
      if (← canInsertSemicolon) || !(← isAt .arrow) then unexpected
      if ← hasError then restore p
    else if (← read).dialect.flow then
      inType 0 do
        let p ← snapshot
        Flow.withAnonymousFunctionTypes false Flow.returnType
        if (← canInsertSemicolon) || !(← isAt .arrow) then unexpected
        if ← hasError then restore p
  eat .arrow

/-- A method from its parameters on. Parameters of a constructor may have modifiers. -/
def method (functionStart : Nat) (isConstructor : Bool) : Parse Unit := do
  let contextId ← freshContext
  openScope
  let start ← tokenIndex
  functionParameters isConstructor contextId
  functionFinish functionStart contextId
  closeScope start true

def functionRest (functionStart : Nat) (isStatement optionalName : Bool) : Parse Unit := do
  skip .star
  if isStatement && !optionalName && !(← isAtAny [.name, .yieldWord]) then unexpected
  let hasNameScope := !isStatement && (← isAt .name)
  let nameStart ← tokenIndex
  if hasNameScope then openScope
  if ← isAt .name then bindingIdentifier false
  let start ← tokenIndex
  openScope
  functionParameters false 0
  functionFinish functionStart 0
  closeScope start true
  if hasNameScope then closeScope nameStart true

/-- The rest of an asynchronous arrow function, after its parameters. -/
def asyncArrowRest (startIndex : Nat) : Parse Unit := do
  if (← read).dialect.typescript then optionalTypeAnnotation
  else if (← read).dialect.flow then
    if ← isAt .colon then Flow.withAnonymousFunctionTypes false typeAnnotation
  expect .arrow
  arrowBody startIndex

-- Rules that only put others together.
attribute [reducible] arrowBody asyncArrowRest functionBody functionFinish functionParameters
  functionRest optionalTypeParameters

end PlainScript.Grammar
