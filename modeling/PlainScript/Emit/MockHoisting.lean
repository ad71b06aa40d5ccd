import PlainScript.Emit.Cursor

/-!
# Hoisting of mocks

The calls of `jest` that set up mocks must run before the imports. Each becomes a function where it
stands, and the functions are called at the top of the file.
-/

namespace PlainScript.Emit

namespace Mock

def object : String := "jest"

def movedMethods : List String := ["mock", "unmock", "enableAutomock", "disableAutomock"]

def methodCall : Emit Unit := do
  copy
  copy
  processBalanced
  copyExpected .parenClose

/-- Writes the calls of a chain one by one. The state says whether the call before is one that stays
in the chain. -/
def chain : Emit Unit := do
  let round (staysChained : Bool) : Emit (ForInStep Bool) := do
    let v ← view
    if !v.isAt [.dot, .name, .parenOpen] then return .done staysChained
    if movedMethods.contains (v.textAhead 1) then
      let name ← claimName "__jestHoist"
      replace ("function " ++ name ++ "()\x7b" ++ object ++ ".")
      modify fun σ => { σ with mockFunctions := σ.mockFunctions.push name }
      methodCall
      add ";\x7d"
      return .yield false
    if staysChained then copy else replace (object ++ ".")
    methodCall
    return .yield true
  discard <| iterate false round

end Mock

def mockPass : Emit Bool := do
  let v ← view
  if v.token.scopeDepth == 0 && v.isAt [.name, .dot, .name, .parenOpen] && v.text == Mock.object &&
      !(← read).plan.isGlobal Mock.object then
    remove
    Mock.chain
    return true
  return false

-- Rules that only put others together.
attribute [reducible] Mock.methodCall mockPass

end PlainScript.Emit
