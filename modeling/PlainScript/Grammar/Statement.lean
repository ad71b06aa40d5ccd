import PlainScript.Grammar.Module

/-!
# Statements
-/

namespace PlainScript.Grammar

open Parse

def blockBody (close : TokenKind) : Parse Unit :=
  loopUntilEaten close (reach (.statement true))

/-- Statements in braces, with a scope of their own. -/
def block (isFunction : Bool) (contextId : Nat) : Parse Unit := do
  let start ← tokenIndex
  openScope
  expect .braceOpen
  setContextIfAny contextId
  blockBody .braceClose
  setContextIfAny contextId
  closeScope start isFunction

/-- Whether `await using` and a name follow, all on one line. -/
def isAtAwaitUsing : Parse Bool := do
  unless ← isAtName .awaitName do
    return false
  peek do
    next
    if !(← spells .usingName) || (← afterLineBreak) then return false
    next
    return (← isAt .name) && !(← afterLineBreak)

def forRest : Parse Unit := do
  expect .semicolon
  unless ← isAt .semicolon do
    reach (.expression false)
  expect .semicolon
  unless ← isAt .parenClose do
    reach (.expression false)
  expect .parenClose
  reach (.statement false)

def forInRest (isAwait : Bool) : Parse Unit := do
  if isAwait then discard <| eatName .ofName else next
  reach (.expression false)
  expect .parenClose
  reach (.statement false)

def forLoop : Parse Unit := do
  next
  let isAwait ← isAtName .awaitName
  if isAwait then next
  expect .parenOpen
  if ← isAt .semicolon then
    if isAwait then unexpected
    forRest
    return
  let isAwaitUsing ← isAtAwaitUsing
  let declares ← pure isAwaitUsing <||> isAtAny [.varWord, .letWord, .constWord] <||>
    (isAtName .usingName <&&> (return !(← peekIsName .ofName)))
  if declares then
    if isAwaitUsing then expectName .awaitName
    let isBlockScoped := !(← isAt .varWord)
    next
    declarators true isBlockScoped
    if (← isAt .inWord) || (← spells .ofName) then forInRest isAwait else forRest
  else
    reach (.expression true)
    if (← isAt .inWord) || (← spells .ofName) then forInRest isAwait
    else
      if isAwait then unexpected
      forRest

def forStatement : Parse Unit := do
  openScope
  let start ← tokenIndex
  forLoop
  closeScope start false

def switchStatement : Parse Unit := do
  next
  parenthesizedExpression
  openScope
  let start ← tokenIndex
  expect .braceOpen
  loopUntil .braceClose do
    if ← isAt .caseWord then
      next
      reach (.expression false)
      expect .colon
    else if ← isAt .defaultWord then
      next
      expect .colon
    else reach (.statement true)
  next
  closeScope start false

/-- A `try` statement. The binding of a `catch` has a scope that covers its block. -/
def tryStatement : Parse Unit := do
  next
  block false 0
  if ← isAt .catchWord then
    next
    if ← isAt .parenOpen then
      openScope
      let start ← tokenIndex
      expect .parenOpen
      bindingAtom true
      if (← read).dialect.typescript then optionalTypeAnnotation
      expect .parenClose
      block false 0
      closeScope start false
    else block false 0
  if ← eat .finallyWord then block false 0

/-- A statement that starts with a name that may be a keyword. Says whether it was one. -/
def softKeywordStatement : Parse Bool := do
  if ← spells .asyncName then
    let functionStart ← startPos
    let p ← snapshot
    next
    if (← isAt .functionWord) && !(← canInsertSemicolon) then
      next
      functionRest functionStart true false
      return true
    restore p
    return false
  if ← (spells .usingName <&&> (return !(← beforeLineBreak)) <&&>
      (return (← peekKind) == .name)) then
    variableStatement true
    return true
  if ← isAtAwaitUsing then
    expectName .awaitName
    variableStatement true
    return true
  return false

def keywordStatement (declaration : Bool) : Parse Bool := do
  match ← kind with
  | .breakWord | .continueWord =>
    next
    unless ← endsStatement do
      identifier
      semicolon
  | .debuggerWord =>
    next
    semicolon
  | .doWord =>
    next
    reach (.statement false)
    expect .whileWord
    parenthesizedExpression
    skip .semicolon
  | .forWord => forStatement
  | .functionWord =>
    if (← peekKind) == .dot then return false
    unless declaration do
      unexpected
    let functionStart ← startPos
    next
    functionRest functionStart true false
  | .classWord =>
    unless declaration do
      unexpected
    classDefinition true false
  | .ifWord =>
    next
    parenthesizedExpression
    reach (.statement false)
    if ← eat .elseWord then reach (.statement false)
  | .returnWord =>
    next
    unless ← endsStatement do
      reach (.expression false)
      semicolon
  | .switchWord => switchStatement
  | .throwWord =>
    next
    reach (.expression false)
    semicolon
  | .tryWord => tryStatement
  | .letWord | .constWord =>
    unless declaration do
      unexpected
    variableStatement true
  | .varWord => variableStatement false
  | .whileWord =>
    next
    parenthesizedExpression
    reach (.statement false)
  | .braceOpen => block false 0
  | .semicolon => next
  | .exportWord =>
    if [.parenOpen, .dot].contains (← peekKind) then return false
    next
    exportClause
  | .importWord =>
    if [.parenOpen, .dot].contains (← peekKind) then return false
    next
    importClause
  | .name => return ← softKeywordStatement
  | _ => return false
  return true

/-- A declaration that started with a lone identifier, or the end of an expression statement. -/
def identifierStatement (word : SoftKeyword) : Parse Unit := do
  let dialect := (← read).dialect
  let isDeclaration ←
    if dialect.typescript then TypeScript.identifierDeclaration word
    else if dialect.flow then Flow.identifierDeclaration word
    else pure false
  unless isDeclaration do
    semicolon

/-- An expression statement. A lone identifier may be a label or the word of a declaration. -/
def expressionStatement : Parse Unit := do
  let start ← tokenIndex
  reach (.expression false)
  let isLone := (← tokenIndex) == start + 1
  match ← lastToken? with
  | some token =>
    if isLone && token.kind == .name then
      if ← eat .colon then reach (.statement true) else identifierStatement token.keyword
    else semicolon
  | none => semicolon

def statement (declaration : Bool) : Parse Unit := do
  let dialect := (← read).dialect
  if ← (pure dialect.flow <&&> Flow.interfaceStatement) then return
  decorators
  if ← (pure dialect.typescript <&&> TypeScript.enumStatement) then return
  unless ← keywordStatement declaration do
    expressionStatement

-- Rules that only put others together.
attribute [reducible] forInRest forLoop forRest forStatement identifierStatement isAtAwaitUsing
  softKeywordStatement switchStatement tryStatement

end PlainScript.Grammar
