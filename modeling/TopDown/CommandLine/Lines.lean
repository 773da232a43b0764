-- The lines of a stream of bytes. A line that is not UTF-8 is no text.

namespace TopDown.Lines

/-- The text that bytes encode. -/
def decode (bytes : List UInt8) : Option String := String.fromUTF8? ⟨bytes.toArray⟩

/-- The lines, each ended by a line feed or by the end of the stream. -/
def ofBytes (bytes : List UInt8) : List (Option String) :=
  let pieces := bytes.splitOn 10
  let ended := if pieces.getLast? = some [] then pieces.dropLast else pieces
  ended.map decode

end TopDown.Lines
