import PlainScript.Emit.Cursor
import PlainScript.Emit.ElementText

/-!
# Elements

An element becomes the call of a function with the tag, an object of the attributes and the
children. Unless the output is for production, the object also says where the element comes from.
-/

namespace PlainScript.Emit.Element

def resolved (name : String) : Emit String := return (← replacement? name).getD name

def lineOf (offset : Nat) : Emit Nat := do
  let lines := (← get).lines.advance (← read).tape.source offset
  modify fun σ => { σ with lines }
  return lines.line

def fileNameVariable : Emit String := do
  match (← get).fileNameVariable? with
  | some name => return name
  | none =>
    let name ← claimName "_jsxFileName"
    modify fun σ => { σ with fileNameVariable? := some name }
    return name

def quoted (text : String) : String := "'" ++ text ++ "'"

/-- Whether the tag goes on at an index, which is not its first one. -/
def tagContinues (t : Tape) (i : Nat) : Bool :=
  (t.get i).isType ||
    (!t.has (i - 1) [.jsxName, .jsxName] && !t.has (i - 1) [.greater, .jsxName] &&
      t.kind i != .braceOpen && t.kind i != .jsxTagEnd && !t.has i [.slash, .jsxTagEnd])

/-- The end of a tag that goes on for at most `n` tokens from an index. -/
def tagEndFor (t : Tape) : Nat → Nat → Nat
  | 0, i => i
  | n + 1, i => if tagContinues t i then tagEndFor t n (i + 1) else i

/-- Writes the tag. A single name in lower case and a name with a namespace become strings. -/
def tag : Emit Unit := do
  let v ← view
  let second := v.index + 1
  let stop := tagEndFor v.tape (v.tape.size - second) second
  if stop = second then
    if startsInLowerCase v.text then replace (quoted v.text)
  else if stop = v.index + 3 && v.isAt [.jsxName, .colon, .jsxName] then
    replace (quoted (v.text ++ ":" ++ v.textAhead 2))
    remove
    remove
  processTo stop

def braced (opening : String) : Emit Unit := do
  replace opening
  processBalanced
  replace ""

def attributeValue : Emit Unit := do
  let v ← view
  if v.kind == .braceOpen then braced ""
  else if v.kind == .jsxTagStart then reach .element
  else
    let value := v.tape.stringValue v.index
    replace (JsonString.quote (ElementText.attributeContent value) ++ ElementText.remainder value)

def attributeName : Emit Unit := do
  let v ← view
  if v.text.toList.contains '-' then replace (quoted v.text) else copy

def attribute? : Emit Bool := do
  let v ← view
  if v.isAt [.jsxName, .colon, .jsxName] then
    replace (quoted (v.text ++ ":" ++ v.textAhead 2))
    remove
    remove
    if (← view).kind == .equals then
      replace ": "
      attributeValue
    else add ": true"
    return true
  else if v.isAt [.jsxName, .equals] then
    attributeName
    replace ": "
    attributeValue
    return true
  else if v.kind == .jsxName then
    attributeName
    add ": true"
    return true
  else if v.kind == .braceOpen then
    braced ""
    return true
  else return false

/-- Writes the attributes, each with a comma after it. -/
def attributes : Emit Unit :=
  iterate () fun _ => do
    if ← attribute? then
      add ","
      return .yield ()
    else return .done ()

def debugInfo (line? : Option Nat) : Emit String := do
  match line? with
  | none => return ""
  | some line =>
    return "__self: this, __source: \x7bfileName: " ++ (← fileNameVariable) ++ ", lineNumber: " ++
      Nat.repr line ++ "\x7d"

def properties (line? : Option Nat) : Emit Unit := do
  let info ← debugInfo line?
  if (← view).isAtOneOf [.jsxName, .braceOpen] then
    add ", \x7b"
    attributes
    add (if info.isEmpty then "\x7d" else " " ++ info ++ "\x7d")
  else
    add (if info.isEmpty then ", null" else ", \x7b" ++ info ++ "\x7d")

/-- Writes a child, and answers whether it is an argument. Text that is only layout is none. -/
def child : Emit Bool := do
  let v ← view
  if v.isAt [.braceOpen, .braceClose] then
    replace ""
    replace ""
    return false
  else if v.kind == .braceOpen then
    braced ", "
    return true
  else if v.kind == .jsxTagStart then
    add ", "
    reach .element
    return true
  else if v.isAtOneOf [.jsxText, .jsxEmptyText] then
    let content := ElementText.content v.text
    if content.isEmpty then
      replace (ElementText.remainder v.text)
      return false
    replace (", " ++ JsonString.quote content ++ ElementText.remainder v.text)
    return true
  else fail .unexpectedChild

def children : Emit Unit :=
  iterate () fun _ => do
    if (← view).isAt [.jsxTagStart, .slash] then return .done ()
    discard child
    return .yield ()

def element : Emit Unit := do
  let env ← read
  let start := (← view).token.start
  let line? ← if env.options.production then pure none else some <$> lineOf start
  replace ((← resolved env.pragma.base) ++ env.pragma.suffix ++ "(")
  if (← view).kind == .jsxTagEnd then
    replace ((← resolved env.pragma.fragmentBase) ++ env.pragma.fragmentSuffix ++ ", null")
    children
  else
    tag
    properties line?
    let v ← view
    if v.kind == .jsxTagEnd then
      remove
      children
    else unless v.isAt [.slash, .jsxTagEnd] do
      fail .elementTagUnfinished
  -- What is left of the tag closes the call.
  removeFirst
  iterate () fun _ => do
    let v ← view
    if v.kind == .jsxTagEnd then return .done ()
    if v.isAtEnd then fail .elementCloseUnfinished
    remove
    return .yield ()
  replace ")"

end Element

def elementPass : Emit Bool := do
  if (← view).kind == .jsxTagStart then
    reach .element
    return true
  return false

-- Rules that only put others together.
attribute [reducible] Element.attribute? Element.attributeName Element.attributeValue
  Element.attributes Element.braced Element.child Element.lineOf elementPass

end PlainScript.Emit
