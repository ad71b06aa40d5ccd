/-!
# Blanks around a text

The characters that count as white space when the ends of a text are trimmed.
-/

namespace PlainScript

def isWhiteSpace (c : Char) : Bool :=
  ('\t' ≤ c && c ≤ '\r') || c == ' ' || c == '\u0085' || c == '\u00a0' || c == '\u1680' ||
    ('\u2000' ≤ c && c ≤ '\u200a') || c == '\u2028' || c == '\u2029' || c == '\u202f' ||
    c == '\u205f' || c == '\u3000'

/-- A list of characters without those at its end that satisfy `p`. -/
def dropTrailing (p : Char → Bool) (cs : List Char) : List Char := (cs.reverse.dropWhile p).reverse

/-- A list of characters without the white space at both ends. -/
def trimChars (cs : List Char) : List Char := dropTrailing isWhiteSpace (cs.dropWhile isWhiteSpace)

theorem isWhiteSpace_of_isWhitespace {c : Char} (h : c.isWhitespace = true) :
    isWhiteSpace c = true := by
  simp [Char.isWhitespace] at h
  rcases h with ((rfl | rfl) | rfl) | rfl <;> decide

end PlainScript
