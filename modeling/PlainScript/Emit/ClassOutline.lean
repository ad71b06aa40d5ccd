import PlainScript.Emit.Failure
import PlainScript.Emit.Names
import PlainScript.Tape

/-!
# Class outlines

What has to be known about a class before it is written: its name, its fields with initial values,
the members that leave no trace, the parameters of the constructor that are also properties, and the
place in the constructor where initial values are set.
-/

namespace PlainScript

/-- The tokens with indices from `start` up to but not including `stop`. -/
structure TokenRange where
  start : Nat
  stop : Nat
deriving DecidableEq, Repr

/-- A field with an initial value, which is computed by a method of its own. -/
structure Field where
  initializer : String
  equalsAt : Nat
  /-- From the name of the field to the end of its value. -/
  range : TokenRange
deriving DecidableEq, Repr

structure ClassMembers where
  parameterProperties : List String := []
  instanceInitializers : List String := []
  staticInitializers : List String := []
  /-- The token after which initial values are set: the end of the call of `super`, or the opening
  brace of the constructor. -/
  insertAt? : Option Nat := none
  fields : List Field := []
  removed : List TokenRange := []
deriving DecidableEq, Repr

/-- What has to be known about a class before it is written. -/
structure ClassOutline extends ClassMembers where
  isExpression : Bool
  name? : Option String
  hasSuperclass : Bool
deriving DecidableEq, Repr

namespace ClassOutline

/-- Whether a token can stand before the name of a member. -/
def isModifier (token : Token) : Bool :=
  match token.kind with
  | .asyncModifier | .getModifier | .setModifier | .plus | .minus | .readonlyModifier
  | .staticModifier | .publicModifier | .privateModifier | .protectedModifier | .overrideModifier
  | .abstractModifier | .star | .declareModifier | .hash => true
  | _ => false

/-- The first index from `i` on, among the next `n + 1`, that satisfies `p`. -/
def seekFor (p : Nat → Bool) : Nat → Nat → Except Failure Nat
  | 0, i => if p i then .ok i else .error (.structureError .endOfInput)
  | n + 1, i => if p i then .ok i else seekFor p n (i + 1)

/-- The first index from `i` on that satisfies `p`; the end of the tape counts as one. -/
def seek (t : Tape) (p : Nat → Bool) (i : Nat) : Except Failure Nat := seekFor p (t.size - i) i

/-- The index after `i`, which must not be the end. -/
def next (t : Tape) (i : Nat) : Except Failure Nat :=
  if i < t.size then .ok (i + 1) else .error (.structureError .endOfInput)

def backOverModifiers (t : Tape) : Nat → Nat
  | 0 => 0
  | i + 1 => if isModifier (t.get i) then backOverModifiers t i else i + 1

def nextMember (t : Tape) (classId? : Option Nat) (i : Nat) : Except Failure Nat := do
  let i ← seek t (fun j => (t.get j).contextId? == classId?) (← next t i)
  return backOverModifiers t i

def afterName (t : Tape) (i : Nat) : Except Failure Nat := do
  if t.kind i == .bracketOpen then
    let contextId? := (t.get i).contextId?
    if contextId?.isNone then throw (.structureError .computedNameContextMissing)
    next t (← seek t (t.hasContext · .bracketClose contextId?) i)
  else next t i

def isConstructor (t : Tape) (i : Nat) : Bool :=
  t.hasSoft i .constructorName && !(t.get i).isType

/-- The parameters of a constructor that are also properties, and the end of the parameters. The
parameters are read from an index on, in at most `n` steps. -/
def parametersFor (t : Tape) (contextId? : Option Nat) :
    Nat → Nat → Except Failure (List String × Nat)
  | 0, _ => .error .budget
  | n + 1, i => do
    if t.hasContext i .parenClose contextId? then return ([], i)
    let j ← next t i
    if (t.get i).contextId? == contextId? && isModifier (t.get j) then
      let j := t.skip isModifier j
      unless t.kind j == .name do
        throw (.structureError .parameterNameMissing)
      let (rest, stop) ← parametersFor t contextId? n j
      return (t.text j :: rest, stop)
    else parametersFor t contextId? n j

/-- The place where initial values are set in the body of a constructor, and the end of the body.
The body is read from an index on, in at most `n` steps. -/
def bodyFor (t : Tape) (contextId? : Option Nat) :
    Nat → Nat → Option Nat → Except Failure (Option Nat × Nat)
  | 0, _, _ => .error .budget
  | n + 1, i, super? => do
    if t.hasContext i .braceClose contextId? then return (super?, i)
    if super?.isNone && t.has i [.superWord, .parenOpen] then
      let callId? := (t.get (i + 1)).contextId?
      if callId?.isNone then throw (.structureError .superCallContextMissing)
      let close ← seek t (t.hasContext · .parenClose callId?) (i + 1)
      bodyFor t contextId? n (← next t close) (some close)
    else bodyFor t contextId? n (← next t i) super?

/-- Reads the constructor whose name is at an index. Gives the parameters that are also properties,
the place where initial values are set, and the index after the constructor. -/
def readConstructor (t : Tape) (i : Nat) : Except Failure (List String × Nat × Nat) := do
  let i ← next t i
  let contextId? := (t.get i).contextId?
  if contextId?.isNone then throw (.structureError .parametersContextMissing)
  let (properties, close) ← parametersFor t contextId? (t.size + 1) i
  let start := t.skip (·.isType) (← next t close)
  let (super?, stop) ← bodyFor t contextId? (t.size + 1) start none
  return (properties, super?.getD start, ← next t stop)

def withConstructor (m : ClassMembers) (properties : List String) (insertAt : Nat) :
    ClassMembers :=
  { m with parameterProperties := properties, insertAt? := some insertAt }

def withRemoved (m : ClassMembers) (start stop : Nat) : ClassMembers :=
  { m with removed := m.removed ++ [⟨start, stop⟩] }

def withField (m : ClassMembers) (isStatic : Bool) (field : Field) : ClassMembers :=
  if isStatic then
    { m with
      staticInitializers := m.staticInitializers ++ [field.initializer]
      fields := m.fields ++ [field] }
  else
    { m with
      instanceInitializers := m.instanceInitializers ++ [field.initializer]
      fields := m.fields ++ [field] }

/-- Reads the members of a class from an index on, in at most `n` steps. `keepsFields` says that
fields without a value and stray semicolons stay. -/
def membersFor (t : Tape) (classId? : Option Nat) (keepsFields : Bool) :
    Nat → Nat → ClassMembers → Names → Except Failure (ClassMembers × Names)
  | 0, _, _, _ => .error .budget
  | n + 1, i, m, names => do
    if t.hasContext i .braceClose classId? then return (m, names)
    if t.size ≤ i then throw (.structureError .classBodyUnfinished)
    if isConstructor t i then
      let (properties, insertAt, stop) ← readConstructor t i
      membersFor t classId? keepsFields n stop (withConstructor m properties insertAt) names
    else if t.kind i == .semicolon then
      let m := if keepsFields then m else withRemoved m i (i + 1)
      membersFor t classId? keepsFields n (i + 1) m names
    else if (t.get i).isType then membersFor t classId? keepsFields n (i + 1) m names
    else
      let nameAt := t.skip isModifier i
      let modifiers := (List.range' i (nameAt - i)).map t.kind
      let isStatic := modifiers.contains .staticModifier
      if (isStatic && t.kind nameAt == .braceOpen) || modifiers.contains .hash then
        membersFor t classId? keepsFields n (← nextMember t classId? nameAt) m names
      else if isConstructor t nameAt then
        let (properties, insertAt, stop) ← readConstructor t nameAt
        membersFor t classId? keepsFields n stop (withConstructor m properties insertAt) names
      else
        let j ← afterName t nameAt
        if t.kind j == .less || t.kind j == .parenOpen then
          membersFor t classId? keepsFields n (← nextMember t classId? j) m names
        else
          let j := t.skip (·.isType) j
          if t.kind j == .equals then
            let some stop := (t.get j).rhsEnd? | throw (.structureError .fieldEndMissing)
            if t.size < stop then throw (.structureError .endOfInput)
            let stop := max j stop
            let (initializer, names) := names.claim (if isStatic then "__initStatic" else "__init")
            let m := withField m isStatic ⟨initializer, j, ⟨nameAt, stop⟩⟩
            membersFor t classId? keepsFields n stop m names
          else
            let hasNoTrace := modifiers.contains .declareModifier ||
              modifiers.contains .abstractModifier
            let m := if keepsFields && !hasNoTrace then m else withRemoved m i j
            membersFor t classId? keepsFields n j m names

/-- Reads the class whose first word is at an index. With `keepsFields` no field is moved into a
method. -/
def read (t : Tape) (keepsFields : Bool) (names : Names) (i : Nat) :
    Except Failure (ClassOutline × Names) := do
  let some contextId := (t.get i).contextId? | throw (.structureError .classWordContextMissing)
  let nameAt ← next t i
  let brace ← seek t (t.hasContext · .braceOpen (some contextId)) nameAt
  let header := (List.range' nameAt (brace - nameAt)).map t.get
  let classId? := (t.get brace).contextId?
  if classId?.isNone then throw (.structureError .classBraceContextMissing)
  let (m, names) ← membersFor t classId? keepsFields (t.size + 2) (← next t brace) {} names
  let m := if keepsFields then
      { m with instanceInitializers := [], staticInitializers := [], fields := [] }
    else m
  return ({ m with
    isExpression := (t.get i).isExpression
    name? := if t.kind nameAt == .name then some (t.text nameAt) else none
    hasSuperclass := header.any fun token => token.kind == .extendsWord && !token.isType }, names)

end ClassOutline

end PlainScript
