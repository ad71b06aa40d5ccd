import PlainScript.Emit.ClassOutline
import PlainScript.Emit.Cursor

/-!
# Classes

The initial values of fields move into methods, which the constructor calls; those of static fields
are called after the class. Parameters of the constructor that are also properties become
assignments. A class without a constructor gets one if there is something to call.
-/

namespace PlainScript.Emit

namespace Class

/-- The statements that the constructor has to run, with semicolons between them. -/
def initCode (c : ClassOutline) (className : String) : String :=
  String.intercalate ";" (c.parameterProperties.map (fun p => "this." ++ p ++ " = " ++ p) ++
    c.instanceInitializers.map fun f => className ++ ".prototype." ++ f ++ ".call(this)")

def needsInit (c : ClassOutline) : Bool :=
  !c.parameterProperties.isEmpty || !c.instanceInitializers.isEmpty

def addConstructor (c : ClassOutline) (className : String) : Emit Unit := do
  if c.insertAt?.isNone && needsInit c then
    let init := initCode c className
    if c.hasSuperclass then
      let args ← claimName "args"
      add ("constructor(..." ++ args ++ ") \x7b super(..." ++ args ++ "); " ++ init ++ "; \x7d")
    else
      add ("constructor() \x7b " ++ init ++ "; \x7d")

def field (f : Field) : Emit Unit := do
  let header := f.initializer ++ "() \x7bthis"
  let v ← view
  let isLiteral := v.isAtOneOf [.string, .number]
  if v.kind == .bracketOpen then copyAfter header
  else if isLiteral then copyAfter (header ++ "[")
  else copyAfter (header ++ ".")
  loopTo f.range.stop do
    if isLiteral && (← view).index == f.equalsAt then add "]"
    processToken
  add "\x7d"

def removeRange (r : TokenRange) : Emit Unit := do
  if (← view).index < r.stop then removeFirst
  removeTo r.stop

structure Pending where
  fields : List Field
  removed : List TokenRange

def bodyPart (c : ClassOutline) (className : String) (p : Pending) : Emit Pending := do
  let i := (← view).index
  match p.fields.head?.filter (·.range.start == i), p.removed.head?.filter (·.start ≤ i) with
  | some f, _ =>
    field f
    return { p with fields := p.fields.tail }
  | none, some r =>
    removeRange r
    return { p with removed := p.removed.tail }
  | none, none =>
    if c.insertAt? == some i then
      copy
      if needsInit c then add (";" ++ initCode c className ++ ";")
    processToken
    return p

def body (c : ClassOutline) (className : String) : Emit Unit := do
  let contextId? := (← view).token.contextId?
  if contextId?.isNone then fail .classBodyContextMissing
  copyExpected .braceOpen
  if (← options).has .reactHotLoader then
    add "__reactstandin__regenerateByEval(key, code) \x7bthis[key] = eval(code);\x7d"
  addConstructor c className
  let round (p : Pending) : Emit (ForInStep Pending) := do
    let v ← view
    if v.hasContext .braceClose contextId? then return .done p
    if v.isAtEnd then fail .classBodyUnfinished
    return .yield (← bodyPart c className p)
  -- A round handles a token or passes a range whose tokens have been handled.
  let rounds := roundLimit (← read).tape + c.removed.length
  discard <| iterateFor round rounds ⟨c.fields, c.removed⟩
  copyExpected .braceClose

def outline : Emit ClassOutline := do
  let v ← view
  match ClassOutline.read v.tape (← options).disableESTransforms (← get).names v.index with
  | .error e => throw e
  | .ok (c, names) =>
    modify fun σ => { σ with names }
    return c

def header (contextId : Nat) : Emit Unit := do
  copyExpected .classWord
  iterate () fun _ => do
    let v ← view
    if v.hasContext .braceOpen (some contextId) then return .done ()
    if v.isAtEnd then fail .classHeaderUnfinished
    processToken
    return .yield ()

end Class

/-- Writes the class under the cursor. The initial values are set through the name of the class, so
a class without a name and a class in an expression are assigned to a variable if they have any. -/
def classDefinition : Emit Unit := do
  let c ← Class.outline
  let hasInitializers := !c.staticInitializers.isEmpty || !c.instanceInitializers.isEmpty
  let needsVariable := (c.isExpression || c.name?.isNone) && hasInitializers
  let className ←
    if needsVariable then do
      let name ← claimName "_class"
      modify fun σ => { σ with variableNames := σ.variableNames.push name }
      add (" (" ++ name ++ " =")
      pure name
    else pure (c.name?.getD "")
  let some contextId := (← view).token.contextId? | fail .classContextMissing
  Class.header contextId
  Class.body c className
  let calls := c.staticInitializers.map fun f => className ++ "." ++ f ++ "()"
  if needsVariable then
    add (", " ++ String.join (calls.map (· ++ ", ")) ++ className ++ ")")
  else unless calls.isEmpty do
    add (" " ++ String.intercalate " " (calls.map (· ++ ";")))

def namedClass : Emit String := do
  let v ← view
  if !v.isAt [.classWord, .name] then fail .classNameMissing
  classDefinition
  return v.textAhead 1

-- Rules that only put others together.
attribute [reducible] Class.addConstructor Class.field Class.header Class.removeRange namedClass

end PlainScript.Emit
