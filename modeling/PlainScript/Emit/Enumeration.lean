import PlainScript.Emit.Cursor

/-!
# Enumerations

An enumeration becomes an object that is filled by a function. A member with a number also maps the
number back to its name. A member without a value counts up from the one before it.
-/

namespace PlainScript.Emit

def variableReserved : List String := ["arguments", "await", "break", "case", "catch", "class",
  "const", "continue", "debugger", "default", "delete", "do", "else", "enum", "eval", "export",
  "extends", "false", "finally", "for", "function", "if", "implements", "import", "in",
  "instanceof", "interface", "let", "new", "null", "package", "private", "protected", "public",
  "return", "static", "super", "switch", "this", "throw", "true", "try", "typeof", "var", "void",
  "while", "with", "yield"]

def isVariableName (text : String) : Bool :=
  Options.isNameText text.toList && !variableReserved.contains text

namespace Enumeration

structure Key where
  literal : String
  /-- The variable that later members can refer to. -/
  variableName? : Option String
deriving DecidableEq, Repr

def keyOf (literal text : String) : Key :=
  ⟨literal, if isVariableName text then some text else none⟩

def key : Emit Key := do
  let v ← view
  match v.kind with
  | .name => return keyOf ("\"" ++ v.text ++ "\"") v.text
  | .string => return keyOf v.text (v.tape.stringValue v.index)
  | _ => fail .enumKeyMissing

def stringMember (name : String) (k : Key) : Emit Unit := do
  match k.variableName? with
  | some x =>
    add ("const " ++ x)
    copy
    copy
    add ("; " ++ name ++ "[" ++ k.literal ++ "] = " ++ x ++ ";")
  | none =>
    add (name ++ "[" ++ k.literal ++ "]")
    copy
    copy
    add ";"

def valueMember (name : String) (k : Key) : Emit Unit := do
  let some stop := (← view).token.rhsEnd? | fail .enumValueEndMissing
  match k.variableName? with
  | some x =>
    add ("const " ++ x)
    copy
    processTo stop
    add ("; " ++ name ++ "[" ++ name ++ "[" ++ k.literal ++ "] = " ++ x ++ "] = " ++ k.literal ++
      ";")
  | none =>
    add (name ++ "[" ++ name ++ "[" ++ k.literal ++ "]")
    copy
    processTo stop
    add ("] = " ++ k.literal ++ ";")

def countedMember (name : String) (k : Key) (previous? : Option String) : Emit Unit := do
  let value := match previous? with
    | some previous => previous ++ " + 1"
    | none => "0"
  let declaration := match k.variableName? with
    | some x => "const " ++ x ++ " = " ++ value ++ "; "
    | none => ""
  add (declaration ++ name ++ "[" ++ name ++ "[" ++ k.literal ++ "] = " ++
    k.variableName?.getD value ++ "] = " ++ k.literal ++ ";")

/-- What a member leaves behind for the next one. -/
structure Previous where
  value? : Option String := none
  isString : Bool := false

def member (name : String) (previous : Previous) : Emit Previous := do
  let k ← key
  removeFirst
  let v ← view
  let isString := v.isAt [.equals, .string, .comma] || v.isAt [.equals, .string, .braceClose]
  if isString then stringMember name k
  else if v.kind == .equals then valueMember name k
  else if previous.isString then fail .enumValueMissing
  else countedMember name k previous.value?
  removeIf .comma
  return { isString, value? := some (k.variableName?.getD (name ++ "[" ++ k.literal ++ "]")) }

def members (name : String) : Emit Unit := do
  let round (previous : Previous) : Emit (ForInStep Previous) := do
    let v ← view
    if v.kind == .braceClose then return .done previous
    if v.isAtEnd then fail .enumUnfinished
    return .yield (← member name previous)
  discard <| iterate {} round

end Enumeration

def enumeration (isExport : Bool) : Emit Unit := do
  removeFirst
  loopWhile (·.isAtOneOf [.constWord, .enumWord]) remove
  let name := (← view).text
  remove
  let isCommonJs := (← options).has .imports
  if isExport && !isCommonJs then add "export "
  add ("var " ++ name ++ "; (function (" ++ name ++ ")")
  copyExpected .braceOpen
  Enumeration.members name
  copyExpected .braceClose
  let target := if isExport && isCommonJs then "exports." ++ name ++ " = " else ""
  add (")(" ++ name ++ " || (" ++ target ++ name ++ " = \x7b\x7d));")

def enumerationPass : Emit Bool := do
  let v ← view
  if v.isAt [.enumWord] || v.isAt [.constWord, .enumWord] then
    enumeration false
    return true
  if v.isAt [.exportWord, .enumWord] || v.isAt [.exportWord, .constWord, .enumWord] then
    enumeration true
    return true
  return false

-- Rules that only put others together.
attribute [reducible] Enumeration.countedMember Enumeration.member Enumeration.members enumeration
  enumerationPass

end PlainScript.Emit
