-- Why a text cannot be read as a document.
import TopDown.Decimal.Shortest
import TopDown.Json.Value

namespace TopDown.Json

/-- What stands where something else was wanted. -/
inductive Found where
  | null
  | bool (b : Bool)
  | number (n : Number)
  | string (s : String)
  | array
  | object
  deriving DecidableEq, Repr

/-- What a place of the document asks for. -/
inductive Wanted where
  | text
  | map
  | document
  deriving DecidableEq, Repr

/-- A text that is well formed so far, but is not the document that is asked for. -/
inductive Mismatch where
  | wrongKind (found : Found) (wanted : Wanted)
  | missingField (name : String)
  | repeatedField (name : String)
  /-- A document written as an array ends after `length` elements. -/
  | tooShort (length : Nat)
  deriving DecidableEq, Repr

/-- A place in a text: the line, counted from one, and the bytes of that line before it. -/
structure Place where
  line : Nat
  column : Nat
  deriving DecidableEq, Repr

inductive Fault where
  /-- The text ends too early. -/
  | unfinished
  | malformed
  | mismatch (what : Mismatch) (place : Place)
  deriving DecidableEq, Repr

end TopDown.Json
