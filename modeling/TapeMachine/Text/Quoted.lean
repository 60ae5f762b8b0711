import TapeMachine.Text.DefaultIgnorable
import TapeMachine.Text.GraphemeExtend
import TapeMachine.Text.Unprintable

/-!
# Quoted characters

A character as it stands in a message: between single quotes, with an escape
for what a reader could not see or would take for the closing quote.
-/

namespace TapeMachine.Text

/-- The voiced and the semi-voiced sound mark of halfwidth katakana. They extend the character before
them and yet have a width and a form of their own. -/
def isHalfwidthSoundMark (c : Char) : Bool :=
  c == '\uff9e' || c == '\uff9f'

/-- Whether the character cannot be seen when it stands alone. -/
def isHidden (c : Char) : Bool :=
  isUnprintable c || isDefaultIgnorable c || isGraphemeExtend c && !isHalfwidthSoundMark c

/-- The code point in lowercase hexadecimal digits between braces. -/
def codePointEscape (c : Char) : String :=
  "\\u\x7b" ++ String.ofList (Nat.toDigits 16 c.toNat) ++ "\x7d"

def escaped (c : Char) : String :=
  if c = '\x00' then "\\0"
  else if c = '\t' then "\\t"
  else if c = '\n' then "\\n"
  else if c = '\r' then "\\r"
  else if c = '\\' then "\\\\"
  else if c = '\'' then "\\'"
  else if isHidden c then codePointEscape c
  else c.toString

def quoted (c : Char) : String :=
  "'" ++ escaped c ++ "'"

end TapeMachine.Text
