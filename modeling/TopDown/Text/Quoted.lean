-- Text between double quotes, with everything escaped that would not show.
import TopDown.Text.Unprintable

namespace TopDown.Text

/-- The code point in hexadecimal digits of lower case, as few as it takes. -/
def hex (c : Char) : String := String.ofList (Nat.toDigits 16 c.toNat)

/-- A quote and a backslash get a backslash before them, NUL, tab, line feed and carriage return
their letters, and any other character without a mark of its own is written by number. -/
def escape (c : Char) : String :=
  if c = '"' then "\\\""
  else if c = '\\' then "\\\\"
  else if c = '\x00' then "\\0"
  else if c = '\t' then "\\t"
  else if c = '\n' then "\\n"
  else if c = '\r' then "\\r"
  else if isUnprintable c then "\\u\x7b" ++ hex c ++ "\x7d"
  else c.toString

def quoted (s : String) : String := "\"" ++ String.join (s.toList.map escape) ++ "\""

/-- Quoted texts between brackets, such as `["a", "b"]`. -/
def quotedList (ss : List String) : String := "[" ++ ", ".intercalate (ss.map quoted) ++ "]"

end TopDown.Text
