import PlainScript.Source
import PlainScript.Source.CharClass

/-!
# Trivia

Blanks, line terminators and comments, which stand between tokens. `Source.skipTrivia` steps over
them; an unterminated block comment is not trivia and stops it.
-/

namespace PlainScript.Source

/-- Steps over at most `n` blanks, line terminators and complete comments from `i` on. -/
def skipTriviaFor (s : Source) : Nat → Nat → Nat
  | 0, i => i
  | n + 1, i =>
    if s.byteAt i == '/' && s.byteAt (i + 1) == '/' then
      s.skipTriviaFor n (s.skipChars (!isLineTerminator ·) (i + 2))
    else if s.byteAt i == '/' && s.byteAt (i + 1) == '*' then
      match s.findPair? '*' '/' (i + 2) with
      | some j => s.skipTriviaFor n (j + 2)
      | none => i
    else
      match s.charAt? i with
      | some c => if isGap c then s.skipTriviaFor n (i + c.utf8Size) else i
      | none => i

def skipTrivia (s : Source) (i : Nat) : Nat := s.skipTriviaFor (s.size - i) i

/-- Whether the text between two offsets holds a line terminator. -/
def hasLineBreak (s : Source) (start stop : Nat) : Bool :=
  match s.slice? start stop with
  | some t => t.toList.any isLineTerminator
  | none => false

end PlainScript.Source
