import PlainScript.Tape

/-!
# Shadowed names

A name that the file imports or exports can be declared again in an inner scope. There it means the
inner binding, and the tokens that spell it are marked. `markShadowed` walks the tokens from the
last to the first and keeps the list of the scopes that contain the current one; the scopes are
given in the order in which they close.
-/

namespace PlainScript.Shadowing

structure Walk where
  /-- The scopes around the current token, the innermost first. -/
  around : List Scope
  /-- The scopes that close further to the front, the last one to close first. -/
  ahead : List Scope
  tokens : Array Token

/-- Whether a token may refer to a variable by its text. -/
def isNameToken (t : Token) : Bool := t.kind == .name || t.kind == .jsxName

def markScope (source : Source) (scope : Scope) (name : String) (tokens : Array Token) :
    Array Token :=
  let mark (i : Nat) (t : Token) : Token :=
    if scope.start ≤ i ∧ i < scope.stop ∧ isNameToken t ∧ t.text source = name then
      { t with shadowsGlobal := true }
    else t
  tokens.mapIdx mark

def bindingScope? (around : List Scope) (t : Token) : Option Scope :=
  if t.hasRole IdentifierRole.isBlockScopedDeclaration then around.head?
  else if t.hasRole IdentifierRole.isFunctionScopedDeclaration then
    (around.find? (·.isFunction)).or around.getLast?
  else none

def moveTo (i : Nat) (w : Walk) : Walk :=
  let around := w.around.dropWhile (·.start == i)
  let (closing, ahead) := w.ahead.span (·.stop == i)
  { w with around := closing.foldl (fun scopes s => s :: scopes) around, ahead }

def visit (source : Source) (isGlobal : String → Bool) (i : Nat) (w : Walk) : Walk :=
  match w.tokens[i]? with
  | none => w
  | some t =>
    if w.around.length ≤ 1 || t.isType || t.kind != .name then w
    else
      let name := t.text source
      if !isGlobal name then w
      else
        match bindingScope? w.around t with
        | some scope => { w with tokens := markScope source scope name w.tokens }
        | none => w

def walk (source : Source) (isGlobal : String → Bool) : Nat → Walk → Walk
  | 0, w => w
  | i + 1, w => walk source isGlobal i (visit source isGlobal i (moveTo (i + 1) w))

/-- Whether an inner declaration has the text of a global name. -/
def hasShadowing (source : Source) (isGlobal : String → Bool) (tokens : Array Token) : Bool :=
  tokens.any fun t =>
    t.kind == .name && !t.isType && t.hasRole IdentifierRole.isInnerDeclaration &&
      isGlobal (t.text source)

/-- Marks the tokens that spell a global name where an inner declaration hides it. -/
def markShadowed (source : Source) (isGlobal : String → Bool) (scopes : Array Scope)
    (tokens : Array Token) : Array Token :=
  if hasShadowing source isGlobal tokens then
    let upper := scopes.foldl (fun n s => max n s.stop) tokens.size
    (walk source isGlobal upper ⟨[], scopes.toList.reverse, tokens⟩).tokens
  else tokens

end PlainScript.Shadowing
