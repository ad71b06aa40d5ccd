/-!
# Variable-length quantities in base 64

A signed number is written as base-64 digits of five bits each, least significant first; the sixth
bit says that more digits follow. The sign is the lowest bit of the whole.
-/

namespace PlainScript.Vlq

/-- The digits of base 64, in the order of their values. -/
def alphabet : List Char :=
  "ABCDEFGHIJKLMNOPQRSTUVWXYZabcdefghijklmnopqrstuvwxyz0123456789+/".toList

def digit (n : Nat) : Char := alphabet.getD n 'A'

def digitValue? (c : Char) : Option Nat := alphabet.idxOf? c

/-- A number with its sign in the lowest bit. The magnitude is shifted as a 64-bit word, so its
highest bit is lost. -/
def signed (value : Int) : Nat :=
  let word := value.natAbs * 2 % UInt64.size
  if value < 0 then word + 1 else word

/-- The values of the digits of a number, least significant first, each with its continuation
bit. -/
def digits (n : Nat) : List Nat :=
  if n < 32 then [n] else (n % 32 + 32) :: digits (n / 32)
termination_by n

def encode (value : Int) : String := String.ofList ((digits (signed value)).map digit)

end PlainScript.Vlq
