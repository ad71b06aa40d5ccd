/-!
# Source text

A source is a text together with its UTF-8 bytes. Every position in the library is a byte offset
into these bytes. `byteAt` reads one byte as the character with that code, so that scanners can
compare it with ASCII characters; past the end it reads as NUL. `charAt?` decodes the character that
starts at an offset and answers `none` past the end or inside a character.

The scanners recurse on the number of bytes that remain, so all of them are structural.
-/

namespace PlainScript

/-- A text and its UTF-8 bytes, kept together so that offsets can be looked up in constant time. -/
structure Source where
  text : String
  bytes : ByteArray := text.toUTF8
  bytes_eq : bytes = text.toUTF8 := by rfl

namespace Source

def ofText (text : String) : Source where
  text := text

def size (s : Source) : Nat := s.bytes.size

/-- The byte at an offset, read as the character with that code; NUL past the end. -/
def byteAt (s : Source) (i : Nat) : Char :=
  if h : i < s.bytes.size then Char.ofUInt8 s.bytes[i] else '\x00'

def charAt? (s : Source) (i : Nat) : Option Char := s.bytes.utf8DecodeChar? i

/-- An offset where a character starts, or the end of the text. -/
def isBoundary (s : Source) (i : Nat) : Bool := i == s.size || (s.charAt? i).isSome

/-- The text between two offsets, if they are in order, in range and cut no character. -/
def slice? (s : Source) (start stop : Nat) : Option String :=
  if start ≤ stop ∧ stop ≤ s.size then String.fromUTF8? (s.bytes.extract start stop) else none

/-- The text between two offsets, empty where there is none. -/
def slice (s : Source) (start stop : Nat) : String := (s.slice? start stop).getD ""

def sliceFrom (s : Source) (start : Nat) : String := s.slice start s.size

/-- The offset reached from `i` by stepping over at most `n` bytes that satisfy `p`. -/
def skipBytesFor (s : Source) (p : Char → Bool) : Nat → Nat → Nat
  | 0, i => i
  | n + 1, i => if p (s.byteAt i) then s.skipBytesFor p n (i + 1) else i

/-- The first offset from `i` on whose byte fails `p`, or the end of the text. -/
def skipBytes (s : Source) (p : Char → Bool) (i : Nat) : Nat := s.skipBytesFor p (s.size - i) i

/-- The offset reached from `i` by stepping over at most `n` characters that satisfy `p`. -/
def skipCharsFor (s : Source) (p : Char → Bool) : Nat → Nat → Nat
  | 0, i => i
  | n + 1, i =>
    match s.charAt? i with
    | some c => if p c then s.skipCharsFor p n (i + c.utf8Size) else i
    | none => i

/-- The first offset from `i` on whose character fails `p`, or where no character starts. -/
def skipChars (s : Source) (p : Char → Bool) (i : Nat) : Nat := s.skipCharsFor p (s.size - i) i

/-- The first of the `n` offsets from `i` on where the bytes `a` and `b` follow each other. -/
def findPairFor (s : Source) (a b : Char) : Nat → Nat → Option Nat
  | 0, _ => none
  | n + 1, i =>
    if s.byteAt i = a ∧ s.byteAt (i + 1) = b then some i else s.findPairFor a b n (i + 1)

/-- The first offset from `i` on where the bytes `a` and `b` follow each other. -/
def findPair? (s : Source) (a b : Char) (i : Nat) : Option Nat := s.findPairFor a b (s.size - i) i

@[simp] theorem ofText_text (text : String) : (ofText text).text = text := rfl

theorem byteAt_eq_nul_of_size_le {s : Source} {i : Nat} (h : s.size ≤ i) : s.byteAt i = '\x00' :=
  dif_neg (Nat.not_lt.mpr h)

theorem le_skipBytesFor (s : Source) (p : Char → Bool) (n i : Nat) : i ≤ s.skipBytesFor p n i := by
  induction n generalizing i with
  | zero => exact Nat.le_refl i
  | succ n ih =>
    rw [skipBytesFor]
    split
    · exact Nat.le_of_succ_le (ih (i + 1))
    · exact Nat.le_refl i

theorem le_skipCharsFor (s : Source) (p : Char → Bool) (n i : Nat) : i ≤ s.skipCharsFor p n i := by
  induction n generalizing i with
  | zero => exact Nat.le_refl i
  | succ n ih =>
    rw [skipCharsFor]
    split
    · split
      · exact Nat.le_trans (Nat.le_add_right i _) (ih _)
      · exact Nat.le_refl i
    · exact Nat.le_refl i

end Source

end PlainScript
