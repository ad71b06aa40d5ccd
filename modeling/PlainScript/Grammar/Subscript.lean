import PlainScript.Grammar.Call

/-!
# Subscripts

Member accesses, calls and tagged templates after an expression. The token that starts a subscript
records where the whole expression starts. A chain that contains `?.` is marked at its first token;
its last token is marked by the rule that reads the whole expression.
-/

namespace PlainScript.Grammar

open Parse

/-- Records on the last token that it is a subscript of the expression that starts at a token. -/
def markSubscript (start : Nat) : Parse Unit :=
  annotateLast ({ · with subscriptStart? := some start })

def markChainStart (start : Nat) : Parse Unit := annotateAt start ({ · with isChainStart := true })

/-- Whether the last token may be the `async` of an arrow function. -/
def afterPossibleAsync : Parse Bool := do
  if ((← lastToken?).any (·.keyword == .asyncName)) then return !(← canInsertSemicolon)
  return false

/-- A call from its opening parenthesis on. -/
def call (start : Nat) : Parse Unit := do
  next
  markSubscript start
  let contextId ← freshContext
  setContext contextId
  callArguments
  setContext contextId

/-- A call of `async`, which may turn out to be the parameters of an arrow function. Says whether
more subscripts may follow. -/
def asyncCall (start : Nat) : Parse Bool := do
  let p ← snapshot
  let arrowStart ← tokenIndex
  call start
  if ← isAtAny [.colon, .arrow] then
    restore p
    openScope
    functionParameters false 0
    asyncArrowRest arrowStart
    return false
  return true

/-- A computed member, after its opening bracket. -/
def computedMember : Parse Unit := do
  reach (.expression false)
  expect .bracketClose

def plainSubscript (start : Nat) (noCalls : Bool) : Parse Bool := do
  match ← kind with
  | .doubleColon =>
    if noCalls then return false
    next
    reach .callee
    reach (.subscripts start noCalls)
    return false
  | .questionDot =>
    markChainStart start
    if ← (pure noCalls <&&> (return (← peekKind) == .parenOpen)) then return false
    next
    markSubscript start
    if ← eat .bracketOpen then computedMember
    else if ← eat .parenOpen then callArguments
    else privateOrPlainName
    return true
  | .dot =>
    next
    markSubscript start
    privateOrPlainName
    return true
  | .bracketOpen =>
    next
    markSubscript start
    computedMember
    return true
  | .parenOpen =>
    if noCalls then return false
    if ← afterPossibleAsync then asyncCall start
    else
      call start
      return true
  | .backquote =>
    template
    return true
  | _ => return false

def genericAsyncArrow : Parse Bool := do
  let p ← snapshot
  let start ← tokenIndex
  openScope
  TypeScript.typeParameters
  functionParameters false 0
  TypeScript.optionalReturnType
  expect .arrow
  if ← hasError then
    restore p
    return false
  arrowBody start
  return true

/-- The kinds with which an expression can start. -/
def startsExpression : TokenKind → Bool
  | .number | .bigint | .decimal | .regexp | .string | .name | .bracketOpen | .braceOpen
  | .parenOpen | .backquote | .atSign | .hash | .increment | .bang | .tilde | .plus | .minus
  | .less | .jsxTagStart | .functionWord | .classWord | .newWord | .thisWord | .superWord
  | .importWord | .yieldWord | .nullWord | .trueWord | .falseWord | .typeofWord | .voidWord
  | .deleteWord => true
  | _ => false

/-- Type arguments of an expression and what they are applied to. An error means that `<` was a
comparison. -/
def typeApplication (start : Nat) (noCalls : Bool) : Parse Unit := do
  TypeScript.splitTypeArguments
  if ← (pure !noCalls <&&> eat .parenOpen) then
    markSubscript start
    callArguments
  else if ← isAt .backquote then template
  else
    let k ← kind
    if k == .greater || (k != .parenOpen && startsExpression k && !(← afterLineBreak)) then
      unexpected

def typeScriptSubscript (start : Nat) (noCalls : Bool) : Parse Bool := do
  if ← ((return !(← afterLineBreak)) <&&> isAt .bang) then
    retype .nonNullAssertion
    skipAsType .nonNullAssertion
    return true
  if ← isAtAny [.less, .shiftLeft] then
    let p ← snapshot
    if ← (pure !noCalls <&&> afterPossibleAsync <&&> genericAsyncArrow) then return true
    typeApplication start noCalls
    if ← hasError then restore p else return true
  else if ← (pure !noCalls <&&> isAt .questionDot <&&> (return (← peekKind) == .less)) then
    next
    markChainStart start
    markSubscript start
    TypeScript.typeArguments
    expect .parenOpen
    callArguments
  plainSubscript start noCalls

def flowTypeApplication : Parse Unit := do
  Flow.typeArguments
  expect .parenOpen
  callArguments

def flowSubscript (start : Nat) (noCalls : Bool) : Parse Bool := do
  if ← (isAt .questionDot <&&> (return (← peekKind) == .less)) then
    if noCalls then return false
    next
    flowTypeApplication
    return true
  if ← (pure !noCalls <&&> isAt .less) then
    let p ← snapshot
    flowTypeApplication
    if ← hasError then restore p else return true
  plainSubscript start noCalls

def flowAsyncArrow : Parse Bool := do
  openScope
  let start ← tokenIndex
  functionParameters false 0
  if ← arrow then
    arrowBody start
    return true
  return false

def subscripts (start : Nat) (noCalls : Bool) : Parse Unit := do
  let dialect := (← read).dialect
  if dialect.flow && (← lastToken?).any (·.isSoft .asyncName) && (← isAt .less) then
    let p ← snapshot
    if (← flowAsyncArrow) && !(← hasError) then return
    restore p
  let one : Parse Bool :=
    if dialect.typescript then typeScriptSubscript start noCalls
    else if dialect.flow then flowSubscript start noCalls
    else plainSubscript start noCalls
  loop do
    if ← hasError then return false
    one

-- Rules that only put others together.
attribute [reducible] afterPossibleAsync asyncCall call computedMember flowAsyncArrow flowSubscript
  flowTypeApplication genericAsyncArrow markChainStart markSubscript typeApplication

end PlainScript.Grammar
