import PlainScript.Emit.Failure
import PlainScript.Tape

/-!
# Specifiers of import and export clauses

The number of tokens of a specifier tells what it is: `a`, `type a`, `a as b` or `type a as b`.
-/

namespace PlainScript

structure Specifier where
  /-- The name before `as` and the name after it, or the only name twice. A specifier of a type has
  no names. -/
  names? : Option (String × String)
  stop : Nat
deriving DecidableEq, Repr

namespace Specifier

def isType (s : Specifier) : Bool := s.names?.isNone

def endsAt (t : Tape) (i : Nat) : Bool := t.kind i == .braceClose || t.kind i == .comma

def read (t : Tape) (i : Nat) : Except StructureError Specifier :=
  if endsAt t (i + 1) then .ok ⟨some (t.text i, t.text i), i + 1⟩
  else if endsAt t (i + 2) then .ok ⟨none, i + 2⟩
  else if endsAt t (i + 3) then .ok ⟨some (t.text i, t.text (i + 2)), i + 3⟩
  else if endsAt t (i + 4) then .ok ⟨none, i + 4⟩
  else .error (.unexpectedSpecifier i)

end Specifier

end PlainScript
