import PlainScript.Grammar.TypeScriptType

/-!
# Elements

Elements written in markup. Inside a tag and between tags lexemes are read by rules of their own;
attribute values and children in braces are ordinary expressions. All rules here leave the last `>`
of an element unconsumed, since what follows it decides how to read on.
-/

namespace PlainScript.Grammar.Element

open Parse

/-- A name, or two of them with a colon between. A single name gets a role. -/
def namespacedName (role : IdentifierRole) : Parse Unit := do
  nextInTag
  if ← isAt .colon then
    nextInTag
    nextInTag
  else setRole role

/-- The name of an element. A single name in lower case is built in and refers to no variable. -/
def name : Parse Unit := do
  let first ← tokenIndex
  namespacedName .access
  let hasDot ← isAt .dot
  loopWhile (isAt .dot) do
    nextInTag
    nextInTag
  unless hasDot do
    if let some token := (← get).tokens[first]? then
      if ((← read).source.byteAt token.start).isLower then
        annotateAt first ({ · with role? := none })

def typeArguments : Parse Unit := do
  if ← eat .jsxTagStart then
    setKind .typeParameterStart
    inType 1 do
      loopUntil .greater do
        reach .tsType
        skip .comma
      nextInTag

def attributeValue : Parse Unit := do
  match ← kind with
  | .braceOpen =>
    next
    reach (.expression false)
    nextInTag
  | .jsxTagStart =>
    nextInTag
    reach .element
    nextInTag
  | .string => nextInTag
  | _ => failHere .attributeValue

def attributeOrSpread : Parse Unit := do
  if ← eat .braceOpen then
    expect .ellipsis
    reach (.assignment false false)
    nextInTag
  else
    namespacedName .objectKey
    if ← isAt .equals then
      nextInTag
      attributeValue

/-- An opening tag after its `<`. Says whether the tag also closes the element. -/
def openingTag : Parse Bool := do
  if ← isAt .jsxTagEnd then return false
  name
  if (← read).dialect.typescript then typeArguments
  loopWhile (return !(← isAtAny [.slash, .jsxTagEnd]) && !(← hasError)) attributeOrSpread
  if ← isAt .slash then
    nextInTag
    return true
  return false

/-- A child of an element, or its closing tag. Says whether there are more. -/
def childOrClose : Parse Bool := do
  if ← hasError then return false
  match ← kind with
  | .jsxTagStart =>
    nextInTag
    if ← isAt .slash then
      nextInTag
      unless ← isAt .jsxTagEnd do
        name
      return false
    reach .element
    nextInElement
    return true
  | .jsxText | .jsxEmptyText =>
    nextInElement
    return true
  | .braceOpen =>
    next
    if ← isAt .ellipsis then
      next
      reach (.expression false)
    else unless ← isAt .braceClose do
      reach (.expression false)
    nextInElement
    return true
  | _ =>
    unexpected
    return false

def element : Parse Unit := do
  unless ← openingTag do
    nextInElement
    loop childOrClose

-- Rules that only put others together.
attribute [reducible] attributeOrSpread namespacedName typeArguments

end PlainScript.Grammar.Element
