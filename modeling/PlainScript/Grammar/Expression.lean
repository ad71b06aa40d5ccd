import PlainScript.Grammar.Element
import PlainScript.Grammar.Object
import PlainScript.Grammar.Subscript

/-!
# Expressions

Operands, operators, conditionals and assignments. Rules that answer with a truth value say whether
they read an arrow function; what follows an arrow function is never an operator or a subscript.
-/

namespace PlainScript.Grammar

open Parse

/-- The items in parentheses, with the parentheses. They may turn out to be parameters, so types and
a rest element are allowed. -/
def parenthesizedItems : Parse Unit := do
  expect .parenOpen
  discard <| iterate true fun isFirst => do
    if (← isAt .parenClose) || (← hasError) then return .done false
    unless isFirst do
      expect .comma
      if ← isAt .parenClose then return .done false
    if ← isAt .ellipsis then
      restElement false
      parenthesizedItemTypes
      return .done false
    reach (.assignment false true)
    return .yield false
  expect .parenClose

/-- Parentheses around an expression or around the parameters of an arrow function. If an arrow
follows, they are read again as parameters; if that fails, they were an expression after all. -/
def parenthesized (canBeArrow : Bool) : Parse Bool := do
  let p ← snapshot
  let start ← tokenIndex
  parenthesizedItems
  let arrowFollows ←
    pure canBeArrow <&&> (isAt .colon <||> (return !(← canInsertSemicolon))) <&&> arrow
  unless arrowFollows do
    return false
  restore p
  openScope
  functionParameters false 0
  discard arrow
  arrowBody start
  if ← hasError then
    restore p
    parenthesizedItems
    return false
  return true

def nameOperand (canBeArrow : Bool) : Parse Bool := do
  let start ← tokenIndex
  let functionStart ← startPos
  let word ← keyword
  identifier
  if word == .awaitName then
    reach .unary
    return false
  let onLine := !(← canInsertSemicolon)
  let k ← kind
  if word == .asyncName && k == .functionWord && onLine then
    next
    functionRest functionStart false false
    return false
  if canBeArrow && word == .asyncName && onLine && k == .name then
    openScope
    bindingIdentifier false
    expect .arrow
    arrowBody start
    return true
  if k == .doWord && onLine then
    next
    reach (.block false 0)
    return false
  if canBeArrow && onLine && k == .arrow then
    openScope
    markDeclared false
    expect .arrow
    arrowBody start
    return true
  setRole .access
  return false

def functionExpression : Parse Unit := do
  let functionStart ← startPos
  identifier
  if ← eat .dot then identifier
  functionRest functionStart false false

def newExpression : Parse Unit := do
  expect .newWord
  if ← eat .dot then identifier
  else
    reach .callee
    skip .questionDot
    let dialect := (← read).dialect
    if dialect.typescript then
      if ← isAtAny [.less, .shiftLeft] then
        let p ← snapshot
        TypeScript.splitTypeArguments
        unless ← isAt .parenOpen do
          unexpected
        if ← hasError then restore p
    else if dialect.flow then
      if ← isAt .less then
        let p ← snapshot
        Flow.typeArguments
        if ← hasError then restore p
    if ← eat .parenOpen then expressionList .parenClose false

/-- A reference to a private name, or the mark that stands for a value in a pipeline. -/
def hashOperand : Parse Unit := do
  let isName := ((← read).source.charAt? (← peekPos)).any fun c => isNameStart c || c == '\\'
  if isName then privateOrPlainName else next

/-- An operand without operators and subscripts. -/
def operand : Parse Bool := do
  if ← eat .modulo then
    identifier
    return false
  if ← isAtAny [.jsxText, .jsxEmptyText] then
    next
    return false
  if ← (isAt .less <&&> (return (← read).dialect.jsx)) then
    retype .jsxTagStart
    nextInTag
    reach .element
    next
    return false
  let σ ← get
  let canBeArrow := σ.potentialArrowAt? == some σ.current.start
  match σ.current.kind with
  | .slash | .compoundAssign =>
    if (← read).source.byteAt σ.current.start == '/' then
      rereadRegexp
      next
    else unexpected
    return false
  | .superWord | .thisWord | .regexp | .number | .bigint | .decimal | .string | .nullWord
  | .trueWord | .falseWord =>
    next
    return false
  | .importWord =>
    next
    if ← isAt .dot then
      setKind .name
      next
      identifier
    return false
  | .name => nameOperand canBeArrow
  | .doWord =>
    next
    reach (.block false 0)
    return false
  | .parenOpen => parenthesized canBeArrow
  | .bracketOpen =>
    next
    expressionList .bracketClose true
    return false
  | .braceOpen =>
    object false false
    return false
  | .functionWord =>
    functionExpression
    return false
  | .atSign =>
    decorators
    reach (.classDefinition false false)
    return false
  | .classWord =>
    reach (.classDefinition false false)
    return false
  | .newWord =>
    newExpression
    return false
  | .backquote =>
    template
    return false
  | .doubleColon =>
    next
    reach .callee
    return false
  | .hash =>
    hashOperand
    return false
  | _ =>
    unexpected
    return false

def callee : Parse Unit := do
  let start ← tokenIndex
  discard operand
  reach (.subscripts start true)

/-- An operand with its subscripts. The last token of a chain with `?.` is marked. -/
def operandWithSubscripts : Parse Bool := do
  let start ← tokenIndex
  if ← operand then return true
  reach (.subscripts start false)
  if ((← get).tokens[start]?).any (·.isChainStart) then
    annotateLast ({ · with isChainEnd := true })
  return false

def unary : Parse Bool := do
  let dialect := (← read).dialect
  if dialect.typescript && !dialect.jsx then
    if ← eat .less then
      -- A type assertion.
      inType 1 do
        reach .tsType
        expect .greater
      reach .unary
      return false
  if ← (isAtName .moduleName <&&> (return (← peekByte) == '{')) then
    unless ← beforeLineBreak do
      expectName .moduleName
      expect .braceOpen
      reach (.blockBody .braceClose)
      return false
  if (← kind).isPrefixOperator then
    next
    reach .unary
    return false
  if ← operandWithSubscripts then return true
  loopWhile (return (← kind).isPostfixOperator && !(← canInsertSemicolon)) do
    if ← isAt .increment then retype .postIncrement
    next
  return false

/-- Operators of precedence `floor` and above, after an operand that starts at a token. A `??` is
recorded on the first and on the last token of what it combines. -/
def operators (start floor : Nat) (noIn : Bool) : Parse Unit := do
  if (← read).dialect.typescript && floor ≤ TokenKind.inWord.precedence then
    if ← ((return !(← afterLineBreak)) <&&> (eatName .asName <||> eatName .satisfiesName)) then
      inType 1 (reach .tsType)
      rereadGreater
      reach (.operators start floor noIn)
      return
  let op ← kind
  let precedence := op.precedence
  if precedence > 0 && !(noIn && op == .inWord) && floor ≤ precedence then
    next
    if op == .nullish then annotateLast ({ · with nullishStart? := some start })
    let rhsStart ← tokenIndex
    reach .unary
    let rhsFloor := if op.isRightAssociative then precedence else precedence + 1
    reach (.operators rhsStart rhsFloor noIn)
    if op == .nullish then
      annotateAt start fun t => { t with nullishStarts := t.nullishStarts + 1 }
      annotateLast fun t => { t with nullishEnds := t.nullishEnds + 1 }
    reach (.operators start floor noIn)

/-- A conditional, or its condition alone. In a typed dialect a `?` before `:`, `,` or `)` marks an
optional parameter. -/
def conditional (noIn : Bool) : Parse Bool := do
  let start ← tokenIndex
  if ← unary then return true
  reach (.operators start 0 noIn)
  let isOptionalMark ← isTyped <&&> isAt .question <&&>
    (return [.colon, .comma, .parenClose].contains (← peekKind))
  unless isOptionalMark do
    if ← eat .question then
      reach (.assignment false false)
      expect .colon
      reach (.assignment noIn false)
  return false

def yieldExpression : Parse Unit := do
  next
  unless (← isAt .semicolon) || (← canInsertSemicolon) do
    skip .star
    reach (.assignment false false)

def plainAssignment (noIn inParens : Bool) : Parse Bool := do
  if ← isAt .yieldWord then
    yieldExpression
    return false
  if ← isAtAny [.parenOpen, .name] then
    modify fun σ => { σ with potentialArrowAt? := some σ.current.start }
  let wasArrow ← conditional noIn
  if inParens then parenthesizedItemTypes
  if (← kind).isAssignment then
    next
    reach (.assignment noIn false)
    return false
  return wasArrow

def genericArrow (noIn inParens : Bool) : Parse Bool := do
  let wasArrow ← plainAssignment noIn inParens
  unless wasArrow do
    unexpected
  return wasArrow

/-- An assignment. Where types can be written, `<` may start the type parameters of an arrow
function. If it can also start an element, that is tried first; otherwise the arrow function is
tried before a type assertion. -/
def assignment (noIn inParens : Bool) : Parse Bool := do
  let dialect := (← read).dialect
  unless ← (isTyped <&&> isAt .less) do
    return ← plainAssignment noIn inParens
  let p ← snapshot
  if dialect.typescript && !dialect.jsx then
    TypeScript.typeParameters
    let wasArrow ← genericArrow noIn inParens
    unless ← hasError do
      return wasArrow
    restore p
    plainAssignment noIn inParens
  else
    let wasArrow ← plainAssignment noIn inParens
    unless ← hasError do
      return wasArrow
    restore p
    retype .typeParameterStart
    if dialect.typescript then TypeScript.typeParameters else Flow.typeParameters
    genericArrow noIn inParens

def expression (noIn : Bool) : Parse Unit := do
  reach (.assignment noIn false)
  loopWhile (eat .comma) (reach (.assignment noIn false))

-- Rules that only put others together.
attribute [reducible] conditional functionExpression genericArrow hashOperand nameOperand
  newExpression operandWithSubscripts parenthesized parenthesizedItems plainAssignment
  yieldExpression

end PlainScript.Grammar
