import PlainScript.Text.Hidden
import PlainScript.Text.JsonString

/-!
# Quoted texts in messages

How a message quotes a text: in double quotes, with a backslash before quotes and backslashes, short
escapes for the tab, the ends of lines and NUL, and the code point in braces for every other
character that would not be seen.
-/

namespace PlainScript.Quoted

/-- The hexadecimal digits of a number, without leading zeros, put before `rest`. -/
def hexDigitsOnto (rest : List Char) (n : Nat) : List Char :=
  let onto := JsonString.hexDigit (n % 16) :: rest
  if n < 16 then onto else hexDigitsOnto onto (n / 16)
termination_by n

def escape (c : Char) : List Char :=
  if c = '\x00' then ['\\', '0']
  else if c = '\t' then ['\\', 't']
  else if c = '\r' then ['\\', 'r']
  else if c = '\n' then ['\\', 'n']
  else if c = '\\' then ['\\', '\\']
  else if c = '"' then ['\\', '"']
  else if isShownAsEscape c then ['\\', 'u', '{'] ++ hexDigitsOnto ['}'] c.toNat
  else [c]

def quote (text : String) : String := "\"" ++ String.ofList (text.toList.flatMap escape) ++ "\""

end PlainScript.Quoted
