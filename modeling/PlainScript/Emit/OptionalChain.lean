import PlainScript.Emit.Cursor

/-!
# Optional chains and nullish operations

A chain with `?.` becomes the call of a support function with a list of steps, and each subscript
becomes a step: the name of what it does, and an arrow function that does it. The right operand of
`??` becomes an arrow function. The calls themselves are opened and closed by the cursor.
-/

namespace PlainScript.Emit

namespace Chain

/-- The number of chains that a token opens, less the number that it closes. A token that does both
counts as opening. -/
def weight (token : Token) : Int :=
  if token.isChainStart then 1 else if token.isChainEnd then -1 else 0

/-- Whether the chain ends before another subscript of it comes among the `n` tokens from an index
on. `depth` counts the chains opened since. -/
def isLastFor (t : Tape) : Nat → Nat → Int → Except StructureError Bool
  | 0, _, _ => .error .chainEndMissing
  | n + 1, i, depth =>
    let token := t.get i
    let depth := depth + weight token
    if depth < 0 then .ok true
    else if depth = 0 ∧ token.subscriptStart?.isSome then .ok false
    else isLastFor t n (i + 1) depth

def isLast (t : Tape) (i : Nat) : Except StructureError Bool :=
  isLastFor t (t.size - (i + 1)) (i + 1) 0

/-- Whether the last subscript of the chain before an index follows `super`. `depth` counts the
chains that have been passed. -/
def followsSuperFrom (t : Tape) : Nat → Int → Except StructureError Bool
  | 0, _ => .error .chainStartMissing
  | i + 1, depth =>
    let token := t.get i
    let depth := depth - weight token
    if depth < 0 then .ok false
    else if depth = 0 ∧ token.subscriptStart?.isSome then
      .ok (decide (0 < i) && (t.before i).kind == .superWord)
    else followsSuperFrom t i depth

def followsSuper (t : Tape) (i : Nat) : Except StructureError Bool := followsSuperFrom t i 0

def answer (result : Except StructureError Bool) : Emit Bool :=
  match result with
  | .ok b => pure b
  | .error e => fail e

/-- Keeps the receiver of a method of `super` when it is called as a step of its own. -/
def bindThis : Emit Unit := do
  let v ← view
  if ← answer (followsSuper v.tape v.index) then add ".bind(this)"

/-- Writes the subscript under the cursor as a step of the chain that starts at an index. -/
def subscript (start : Nat) : Emit Unit := do
  let v ← view
  let parameter ← claimName "_"
  let isDelete ←
    if 0 < start ∧ v.tape.kind (start - 1) = .deleteWord then answer (isLast v.tape v.index)
    else pure false
  let wait := if v.tape.isAsyncStart start then "async " else ""
  let arrow := wait ++ parameter ++ " => " ++ (if isDelete then "delete " else "") ++ parameter
  if v.isAt [.questionDot, .parenOpen] || v.isAt [.questionDot, .less] then
    bindThis
    replaceTrimmed (", 'optionalCall', " ++ arrow)
  else if v.isAt [.questionDot, .bracketOpen] then
    replaceTrimmed (", 'optionalAccess', " ++ arrow)
  else if v.kind == .questionDot then
    replaceTrimmed (", 'optionalAccess', " ++ arrow ++ ".")
  else if v.kind == .dot then
    replaceTrimmed (", 'access', " ++ arrow ++ ".")
  else if v.kind == .bracketOpen then
    replaceTrimmed (", 'access', " ++ arrow ++ "[")
  else if v.kind == .parenOpen then
    bindThis
    replaceTrimmed (", 'call', " ++ arrow ++ "(")
  else fail .unexpectedSubscript

end Chain

/-- Handles the operators of chains and nullish operations. -/
def optionalChainPass : Emit Bool := do
  let v ← view
  if v.kind == .nullish then
    let isAsync := v.token.nullishStart?.any v.tape.isAsyncStart
    replaceTrimmed (if isAsync then ", async () => (" else ", () => (")
    return true
  if v.kind == .deleteWord && (v.ahead 1).isChainStart then
    removeFirst
    return true
  match v.token.subscriptStart? with
  | none => return false
  | some start =>
    -- A subscript of `super` is never optional and stays as it is.
    if !(v.tape.get start).isChainStart || v.behind.kind == .superWord then return false
    Chain.subscript start
    return true

-- Rules that only put others together.
attribute [reducible] Chain.bindThis Chain.subscript

end PlainScript.Emit
