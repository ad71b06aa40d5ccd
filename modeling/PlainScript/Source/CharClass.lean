/-!
# Character classes of the language

Blanks, line terminators and the characters of names. Outside ASCII every character that is neither
a blank nor a line terminator may stand in a name.
-/

namespace PlainScript

def isBlank (c : Char) : Bool :=
  c == '\t' || c == '\x0b' || c == '\x0c' || c == ' ' || c == '\u00a0' || c == '\u1680' ||
    ('\u2000' ≤ c && c ≤ '\u200a') || c == '\u202f' || c == '\u205f' || c == '\u3000' ||
    c == '\ufeff'

def isLineTerminator (c : Char) : Bool :=
  c == '\n' || c == '\r' || c == '\u2028' || c == '\u2029'

/-- A character between tokens: a blank or a line terminator. -/
def isGap (c : Char) : Bool := isBlank c || isLineTerminator c

def isNameStart (c : Char) : Bool :=
  if c.toNat < 128 then c.isAlpha || c == '$' || c == '_' else !isGap c

/-- A character that may continue a name. -/
def isNamePart (c : Char) : Bool := isNameStart c || c.isDigit

theorem isNamePart_of_isNameStart {c : Char} (h : isNameStart c = true) : isNamePart c = true := by
  simp [isNamePart, h]

end PlainScript
