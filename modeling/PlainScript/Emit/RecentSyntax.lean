import PlainScript.Emit.Cursor

/-!
# Numeric separators and catch clauses without a binding
-/

namespace PlainScript.Emit

def numericSeparatorPass : Emit Bool := do
  let v ← view
  let chars := v.text.toList
  if v.isAtOneOf [.number, .bigint] && chars.contains '_' then
    replace (String.ofList (chars.filter (· != '_')))
    return true
  return false

def catchBindingPass : Emit Bool := do
  if (← view).isAt [.catchWord, .braceOpen] then
    copy
    add (" (" ++ (← claimName "e") ++ ")")
    return true
  return false

-- Rules that only put others together.
attribute [reducible] catchBindingPass numericSeparatorPass

end PlainScript.Emit
