import PlainScript.Source

/-!
# Lines and columns

Converts byte offsets to lines and columns. Both count from zero, a column counts bytes, and only
`\n` starts a new line. The end of the text has a position too.
-/

namespace PlainScript

/-- A line and a column, both counted from zero. -/
structure LineColumn where
  line : Nat := 0
  column : Nat := 0
deriving DecidableEq, Repr

namespace LineColumn

/-- Lexicographic order: the line decides first. -/
def ble (a b : LineColumn) : Bool := a.line < b.line || (a.line == b.line && a.column ≤ b.column)

end LineColumn

/-- The offsets where the lines of a text start, in ascending order, and the length of the text. -/
structure LineIndex where
  starts : Array Nat
  size : Nat

namespace LineIndex

/-- The offsets that follow a line feed among `bytes`, the first of which stands at `i`. -/
def startsAfter : List UInt8 → Nat → List Nat
  | [], _ => []
  | b :: rest, i => if b = 10 then (i + 1) :: startsAfter rest (i + 1) else startsAfter rest (i + 1)

def ofSource (s : Source) : LineIndex where
  starts := (0 :: startsAfter s.bytes.toList 0).toArray
  size := s.size

def lineCount (index : LineIndex) : Nat := index.starts.size

/-- The last of the first `n` lines that starts at or before an offset. -/
def lineBefore (index : LineIndex) (offset : Nat) : Nat → Nat
  | 0 => 0
  | n + 1 => if index.starts.getD n 0 ≤ offset then n else index.lineBefore offset n

/-- The position of an offset, unless it lies past the end of the text. -/
def position? (index : LineIndex) (offset : Nat) : Option LineColumn :=
  if offset ≤ index.size then
    let line := index.lineBefore offset index.starts.size
    some { line, column := offset - index.starts.getD line 0 }
  else none

end LineIndex

end PlainScript
