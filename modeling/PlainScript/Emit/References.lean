import PlainScript.Emit.Specifier
import PlainScript.Options

/-!
# References and declarations of a file

What the decision to drop an import or an export rests on: the names that value code refers to, the
names declared at the top level, and the names that imports bind.
-/

namespace PlainScript

/-- The functions that elements become calls of, cut at the first dot, so that the first name of
each can be replaced like any other reference. -/
structure ElementPragma where
  base : String
  suffix : String
  fragmentBase : String
  fragmentSuffix : String
deriving DecidableEq, Repr

namespace ElementPragma

def head (text : String) : String := String.ofList (text.toList.takeWhile (· != '.'))

/-- A text from its first dot on. -/
def tail (text : String) : String := String.ofList (text.toList.dropWhile (· != '.'))

def ofOptions (o : Options) : ElementPragma where
  base := head o.jsxPragma
  suffix := tail o.jsxPragma
  fragmentBase := head o.jsxFragmentPragma
  fragmentSuffix := tail o.jsxFragmentPragma

end ElementPragma

def startsInLowerCase (text : String) : Bool := text.toList.head?.any Char.isLower

namespace Tape

/-- The names that the token at an index refers to as values. -/
def valueNamesAt (t : Tape) (pragma : ElementPragma) (i : Nat) : List String :=
  let token := t.get i
  match token.kind with
  | .name =>
    let isReference := token.role? == some .access || token.role? == some .objectShorthand ||
      token.role? == some .exportAccess
    if !token.isType && !token.shadowsGlobal && isReference then [t.text i] else []
  | .jsxTagStart =>
    if t.kind (i + 1) == .jsxTagEnd then [pragma.base, pragma.fragmentBase] else [pragma.base]
  | .jsxName =>
    -- A lower-case name alone, such as `div`, is no reference.
    if token.role? == some .access &&
        (!startsInLowerCase (t.text i) || t.kind (i + 1) == .dot) then [t.text i]
    else []
  | _ => []

def valueNames (t : Tape) (pragma : ElementPragma) : List String :=
  (List.range t.size).flatMap (t.valueNamesAt pragma)

end Tape

/-- The names declared at the top level. A name can be both. -/
structure Declarations where
  types : List String := []
  values : List String := []
deriving DecidableEq, Repr

namespace Declarations

/-- The texts of the top-level declarations among tokens. -/
def texts (t : Tape) (p : Token → Bool) : List String :=
  (t.tokens.toList.filter fun token =>
    token.kind == .name && token.hasRole IdentifierRole.isTopLevelDeclaration && p token).map
    (·.text t.source)

def ofTape (t : Tape) : Declarations where
  types := texts t (·.isType)
  values := texts t (!·.isType)

def isTypeOnly (d : Declarations) (name : String) : Bool :=
  d.types.contains name && !d.values.contains name

end Declarations

namespace Tape

def specifierNamesFor (t : Tape) : Nat → Nat → Except Failure (List String)
  | 0, _ => .error .budget
  | n + 1, i =>
    if i < t.size ∧ t.kind i != .braceClose then
      match Specifier.read t i with
      | .error e => .error (.structureError e)
      | .ok s => do
        let next := if t.kind s.stop == .comma then s.stop + 1 else s.stop
        let rest ← t.specifierNamesFor n next
        return (s.names?.map Prod.snd).toList ++ rest
    else .ok []

def importClauseNames (t : Tape) (i : Nat) : Except Failure (List String) := do
  if t.kind i == .parenOpen then return []
  let (defaultNames, i) :=
    if t.kind i == .name then
      ([t.text i], if t.kind (i + 1) == .comma then i + 2 else i + 1)
    else ([], i)
  let (wildcardNames, i) := if t.kind i == .star then ([t.text (i + 2)], i + 3) else ([], i)
  let specifierNames ←
    if t.kind i == .braceOpen then t.specifierNamesFor (t.size + 1) (i + 1) else pure []
  return defaultNames ++ wildcardNames ++ specifierNames

/-- The names bound by all import statements except those of the form `import a = b`. -/
def importedNames (t : Tape) : Except Failure (List String) := do
  let starts := (List.range t.size).filter fun i =>
    t.kind i == .importWord && !t.has i [.importWord, .name, .equals]
  return (← starts.mapM fun i => t.importClauseNames (i + 1)).flatten

end Tape

end PlainScript
