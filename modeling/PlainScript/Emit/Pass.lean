import PlainScript.Emit.CommonJs
import PlainScript.Emit.DisplayName
import PlainScript.Emit.Element
import PlainScript.Emit.Enumeration
import PlainScript.Emit.EsModule
import PlainScript.Emit.HotLoader
import PlainScript.Emit.MockHoisting
import PlainScript.Emit.OptionalChain
import PlainScript.Emit.RecentSyntax

/-!
# Passes

All passes together. At each token the passes are asked in order, and the first one that handles the
token has moved the cursor. A token that no pass handles is copied. Classes are always handled
first.
-/

namespace PlainScript.Emit

inductive Pass where
  | optionalChain
  | numericSeparator
  | catchBinding
  | element
  | displayName
  | commonJs
  | esModule
  | types
  | modifiers
  | enumerations
  | mocks
deriving DecidableEq, Repr

namespace Pass

def run : Pass → Emit Bool
  | .optionalChain => optionalChainPass
  | .numericSeparator => numericSeparatorPass
  | .catchBinding => catchBindingPass
  | .element => elementPass
  | .displayName => displayNamePass
  | .commonJs => commonJsPass
  | .esModule => esModulePass
  | .types => typePass
  | .modifiers => modifierPass
  | .enumerations => enumerationPass
  | .mocks => mockPass

/-- The passes that options ask for, in the order in which they are asked. -/
def enabled (o : Options) : List Pass :=
  (if o.disableESTransforms then [] else [optionalChain, numericSeparator, catchBinding]) ++
    (if o.has .jsx then [element, displayName] else []) ++
    [if o.has .imports then commonJs else esModule] ++
    (if o.has .flow then [types] else []) ++
    (if o.has .typescript then [types, modifiers, enumerations] else []) ++
    (if o.has .jest then [mocks] else [])

end Pass

/-- Asks passes in order, and answers whether one has handled the token. -/
def firstPass : List Pass → Emit Bool
  | [] => pure false
  | pass :: rest => do
    if ← pass.run then return true
    firstPass rest

def token : Emit Unit := do
  if (← view).kind == .classWord then classDefinition
  else
    unless ← firstPass (Pass.enabled (← options)) do
      copy

/-- The number of braces and parentheses that are open. -/
structure Depth where
  braces : Nat := 0
  parens : Nat := 0

/-- The depth after a token, unless the token closes what was open before. -/
def Depth.after? (d : Depth) : TokenKind → Option Depth
  | .braceOpen | .dollarBrace => some { d with braces := d.braces + 1 }
  | .braceClose => if d.braces = 0 then none else some { d with braces := d.braces - 1 }
  | .parenOpen => some { d with parens := d.parens + 1 }
  | .parenClose => if d.parens = 0 then none else some { d with parens := d.parens - 1 }
  | _ => some d

def balancedRound (d : Depth) : Emit (ForInStep Depth) := do
  let v ← view
  if v.isAtEnd then return .done d
  match d.after? v.kind with
  | none => return .done d
  | some d =>
    processToken
    return .yield d

/-- Handles tokens up to the brace or parenthesis that closes one opened before. -/
def balanced : Emit Unit := discard <| iterate {} balancedRound

def perform : Task → Emit Unit
  | .token => token
  | .balanced => balanced
  | .element => Element.element

def performFor (s : Setting) : Nat → Task → Step Unit
  | 0, _ => throw .budget
  | n + 1, task => (perform task).run { s with recur := performFor s n }

/-- A depth of nesting that no tape needs: a task that does another one has handled a token before
the third. -/
def depthLimit (t : Tape) : Nat := 4 * (t.size + 4)

end PlainScript.Emit
