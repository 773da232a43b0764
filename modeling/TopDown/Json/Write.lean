-- Writing values of the JSON data format, one member or element a line, two spaces deeper in each
-- container.
import TopDown.Decimal.Shortest
import TopDown.Json.Value
import TopDown.Text.Quoted

namespace TopDown.Json

/-- Letters where the format has them, numbers for the other control characters, and every other
character as it is. -/
def escape (c : Char) : String :=
  if c = '"' then "\\\""
  else if c = '\\' then "\\\\"
  else if c = '\x08' then "\\b"
  else if c = '\x0c' then "\\f"
  else if c = '\n' then "\\n"
  else if c = '\r' then "\\r"
  else if c = '\t' then "\\t"
  else if c.toNat < 0x10 then "\\u000" ++ Text.hex c
  else if c.toNat < 0x20 then "\\u00" ++ Text.hex c
  else c.toString

def quote (s : String) : String := "\"" ++ String.join (s.toList.map escape) ++ "\""

/-- Parts between two brackets, each on a line of its own. -/
def enclose (opening closing : String) (depth : Nat) (parts : List String) : String :=
  let indent (n : Nat) := String.ofList (List.replicate (2 * n) ' ')
  if parts.isEmpty then opening ++ closing
  else
    opening ++ "\n" ++ ",\n".intercalate (parts.map fun p => indent (depth + 1) ++ p) ++
      "\n" ++ indent depth ++ closing

namespace Value

mutual

/-- The text of a value inside `depth` containers. -/
def write (depth : Nat) : Value → String
  | null => "null"
  | bool b => toString b
  | number (.whole n) => toString n
  | number (.binary bits) => Decimal.ofBits bits
  | string s => quote s
  | array items => enclose "[" "]" depth (writeItems (depth + 1) items)
  | object members => enclose "\x7b" "\x7d" depth (writeMembers (depth + 1) members)

def writeItems (depth : Nat) : List Value → List String
  | [] => []
  | v :: vs => write depth v :: writeItems depth vs

def writeMembers (depth : Nat) : List (String × Value) → List String
  | [] => []
  | (key, v) :: ms => (quote key ++ ": " ++ write depth v) :: writeMembers depth ms

end

end Value

end TopDown.Json
