import PlainScript.Emit.Cursor

/-!
# Display names of React classes

A class made by `createReactClass` or `React.createClass` is given a `displayName`, unless it has
one: the name of the variable or property that it is assigned to, or a name taken from the path of
the file for a default export.
-/

namespace PlainScript.Emit.DisplayName

/-- The text before the last dot, or the whole text if it has none. -/
def withoutExtension (cs : List Char) : List Char :=
  if cs.contains '.' then ((cs.reverse.dropWhile (· != '.')).drop 1).reverse else cs

/-- The name that a path gives: that of the file, or that of its directory for an `index` file. -/
def ofPath (path : String) : String :=
  match (splitChars '/' path.toList).reverse with
  | [] => ""
  | file :: directories =>
    let base := withoutExtension file
    match directories with
    | directory :: _ =>
      if base = "index".toList ∧ directory ≠ [] then String.ofList directory else String.ofList base
    | [] => String.ofList base

/-- The name of the class that is made by the call whose first token is at an index. -/
def find? (t : Tape) (path? : Option String) (i : Nat) : Option String :=
  if i < 2 then none
  else if t.has (i - 2) [.name, .equals] then some (t.text (i - 2))
  else if (t.get (i - 2)).role? == some .objectKey then some (t.text (i - 2))
  else if t.has (i - 2) [.exportWord, .defaultWord] then some (ofPath (path?.getD "unknown"))
  else none

/-- Searches the object with a context number, for at most `n` tokens from an index on. Answers the
index after its end, or `none` if it has a key `displayName`. -/
def objectEndFor (t : Tape) (objectId? : Option Nat) :
    Nat → Nat → Except StructureError (Option Nat)
  | 0, _ => .error .objectUnfinished
  | n + 1, i =>
    let token := t.get i
    if t.hasContext i .braceClose objectId? then
      if i + 1 < t.size then .ok (some (i + 1)) else .error .objectUnfinished
    else if token.contextId? == objectId? && token.role? == some .objectKey &&
        t.text i == "displayName" then .ok none
    else objectEndFor t objectId? n (i + 1)

/-- Whether the call whose arguments start at an index has one argument, an object without a key
`displayName`. -/
def isWanted (t : Tape) (i : Nat) : Except StructureError Bool := do
  if !t.has i [.parenOpen, .braceOpen] then return false
  let objectId? := (t.get (i + 1)).contextId?
  if objectId?.isNone then throw .objectContextMissing
  match ← objectEndFor t objectId? (t.size - i) i with
  | none => return false
  | some stop => return t.kind stop == .parenClose || t.has stop [.comma, .parenClose]

/-- Writes the arguments of the call whose first token is at an index, with a name if they need
one. -/
def arguments (start : Nat) : Emit Unit := do
  let v ← view
  match find? v.tape (← options).filePath? start with
  | none => pure ()
  | some name =>
    match isWanted v.tape v.index with
    | .error e => fail e
    | .ok false => pure ()
    | .ok true =>
      copyExpected .parenOpen
      copyExpected .braceOpen
      add ("displayName: '" ++ name ++ "',")
      processBalanced
      copyExpected .braceClose
      copyExpected .parenClose

end DisplayName

def displayNamePass : Emit Bool := do
  let v ← view
  if v.kind != .name then return false
  if v.text == "createReactClass" then
    match ← replacement? v.text with
    | some code => replace ("(0, " ++ code ++ ")")
    | none => copy
    DisplayName.arguments v.index
    return true
  if v.isAt [.name, .dot, .name] && v.text == "React" && v.textAhead 2 == "createClass" then
    replace ((← replacement? v.text).getD v.text)
    copy
    copy
    DisplayName.arguments v.index
    return true
  return false

end PlainScript.Emit
