import PlainScript.Text.Blank
import PlainScript.Text.Entity
import PlainScript.Text.JsonString

/-!
# Text in elements

The text between tags and the values of attributes become string literals. Character references are
decoded. Between tags, white space around line breaks is layout and goes away: each line is trimmed
on the sides where it was broken, lines that are then empty are dropped, and the others are joined
by single blanks.
-/

namespace PlainScript.ElementText

/-- A character of a text. One that was written as a reference never counts as white space. -/
structure TextUnit where
  char : Char
  isReference : Bool
deriving DecidableEq, Repr

/-- Decodes the references of a text after skipping a number of characters. -/
def unitsAfter : Nat → List Char → List TextUnit
  | _, [] => []
  | n + 1, _ :: rest => unitsAfter n rest
  | 0, c :: rest =>
    match (if c = '&' then Entity.decode rest else none) with
    | some (d, n) => ⟨d, true⟩ :: unitsAfter n rest
    | none => ⟨c, false⟩ :: unitsAfter 0 rest

def units (text : String) : List TextUnit := unitsAfter 0 text.toList

structure Layout where
  /-- The blanks since the last other character of the line, the last one first. -/
  blanks : List Char := []
  /-- Whether only blanks have been read since the last line break. -/
  isAtLineStart : Bool := false
  /-- Whether a character other than a blank has been read. -/
  hasText : Bool := false

def trimLayout : Layout → List TextUnit → List Char
  | l, [] => if l.isAtLineStart then [] else l.blanks.reverse
  | l, u :: rest =>
    if !u.isReference && (u.char == ' ' || u.char == '\t' || u.char == '\r') then
      trimLayout (if l.isAtLineStart then l else { l with blanks := u.char :: l.blanks }) rest
    else if !u.isReference && u.char == '\n' then
      trimLayout { l with blanks := [], isAtLineStart := true } rest
    else
      (if l.hasText && l.isAtLineStart then [' '] else []) ++ l.blanks.reverse ++
        u.char :: trimLayout { hasText := true } rest

def content (text : String) : String := String.ofList (trimLayout {} (units text))

/-- Joins lines: a line break and the white space after it become a blank. `isJoining` says that
such white space is being skipped. -/
def joinLines : Bool → List TextUnit → List Char
  | _, [] => []
  | isJoining, u :: rest =>
    let isSpace (x : TextUnit) : Bool := !x.isReference && isWhiteSpace x.char
    if isJoining && isSpace u then joinLines true rest
    else if !u.isReference && u.char == '\n' then
      if rest.head?.any isSpace then ' ' :: joinLines true rest else '\n' :: joinLines false rest
    else u.char :: joinLines false rest

def attributeContent (text : String) : String := String.ofList (joinLines false (units text))

/-- What stays of a text that is not copied: its line breaks and the number of blanks after the
last one. -/
def remainder (text : String) : String :=
  let cs := text.toList
  let lastLine := cs.reverse.takeWhile (· != '\n')
  String.ofList (cs.filter (· == '\n') ++ lastLine.filter (· == ' '))

end PlainScript.ElementText
