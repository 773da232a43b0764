-- Values of the JSON data format, with the members of an object in order.

namespace TopDown.Json

/-- A number as read: a whole number where 64 bits hold it, else a binary64 by its bits. -/
inductive Number where
  | whole (n : Int)
  | binary (bits : UInt64)
  deriving DecidableEq, Repr

inductive Value where
  | null
  | bool (b : Bool)
  | number (n : Number)
  | string (s : String)
  | array (items : List Value)
  | object (members : List (String × Value))
  deriving Repr

namespace Value

def ofNat (n : Nat) : Value := .number (.whole n)

def items? : Value → Option (List Value)
  | .array vs => some vs
  | _ => none

def members? : Value → Option (List (String × Value))
  | .object ms => some ms
  | _ => none

def string? : Value → Option String
  | .string s => some s
  | _ => none

end Value

end TopDown.Json
