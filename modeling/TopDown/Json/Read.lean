-- Reading values of the JSON data format. A value that is kept may hold containers to a limited
-- depth; a value that is skipped is only checked for its shape.
import TopDown.Json.Numeral
import TopDown.Json.Quote
import TopDown.Keyed

namespace TopDown.Json

open Reader

namespace Reader

variable {α : Type}

/-! ## Punctuation -/

/-- Read a word of which the first letter is known to be ahead. -/
def word (letters : String) : Reader Unit := letters.toList.forM fun c => expect c .malformed

/-- In an array, move to the next element. False at the closing bracket, which stays unread. -/
def nextElement (first : Bool) : Reader Bool := do
  match ← peekSolid with
  | none => fail .unfinished
  | some ']' => return false
  | some ',' =>
    if first then return true
    skip
    match ← peekSolid with
    | none => fail .unfinished
    | some ']' => fail .malformed
    | some _ => return true
  | some _ => if first then return true else fail .malformed

/-- In an object, read the next key. None at the closing brace, which stays unread. -/
def nextKey (first : Bool) : Reader (Option String) := do
  match ← peekSolid with
  | none => fail .unfinished
  | some '}' => return none
  | some c =>
    if !first then
      if c ≠ ',' then fail .malformed
      skip
    match ← peekSolid with
    | none => fail .unfinished
    | some '"' => skip; return some (← Quote.read)
    | some _ => fail .malformed

/-- Read the colon after a key. -/
def colon : Reader Unit := do
  match ← peekSolid with
  | none => fail .unfinished
  | some ':' => skip
  | some _ => fail .malformed

/-! ## Containers -/

/-- The elements of an array whose opening bracket is read. -/
def elements (element : Reader α) : Reader (List α) :=
  loop (fun back => do
    if ← nextElement back.isEmpty then return .inl ((← element) :: back)
    skip
    return .inr back.reverse)
    []

/-- The members of an object whose opening brace is read. Of two with one key the later value
stands, at the earlier place. -/
def members (value : Reader α) : Reader (List (String × α)) :=
  loop (fun back => do
    match ← nextKey back.isEmpty with
    | some key =>
      colon
      return .inl ((key, ← value) :: back)
    | none =>
      skip
      return .inr (Keyed.ofList back.reverse))
    []

/-! ## Values -/

/-- Read a value, which may open `levels` containers inside one another. -/
def value (levels : Nat) : Reader Value := do
  match ← peekSolid with
  | none => fail .unfinished
  | some 'n' => word "null"; return .null
  | some 't' => word "true"; return .bool true
  | some 'f' => word "false"; return .bool false
  | some '"' => skip; return .string (← Quote.read)
  | some '[' =>
    match levels with
    | 0 => fail .malformed
    | levels + 1 => skip; return .array (← elements (value levels))
  | some '{' =>
    match levels with
    | 0 => fail .malformed
    | levels + 1 => skip; return .object (← members (value levels))
  | some c =>
    if c = '-' ∨ c.isDigit then return .number (← Numeral.read) else fail .malformed

/-! ## Skipping -/

/-- A container that is open around the place of reading. -/
inductive Frame where
  | array
  | object
  deriving DecidableEq

def Frame.close : Frame → Char
  | .array => ']'
  | .object => '}'

/-- Skip a key and its colon. -/
def skipKey : Reader Unit := do
  match ← peekSolid with
  | none => fail .unfinished
  | some '"' => skip; Quote.skipOver; colon
  | some _ => fail .malformed

/-- After a value, close what ends here and move to the next value, if one is to come. The result
is what stays open around it. -/
def skipOn : List Frame → Reader (List Frame ⊕ Unit)
  | [] => return .inr ()
  | f :: fs => do
    match ← peekSolid with
    | none => fail .unfinished
    | some ',' =>
      skip
      if f = .object then skipKey
      return .inl (f :: fs)
    | some c =>
      if c = f.close then
        skip
        skipOn fs
      else fail .malformed

/-- Open a container and move to its first value, if there is one. -/
def skipInto (f : Frame) (fs : List Frame) : Reader (List Frame ⊕ Unit) := do
  skip
  match ← peekSolid with
  | none => fail .unfinished
  | some c =>
    if c = f.close then
      skip
      skipOn fs
    else
      if f = .object then skipKey
      return .inl (f :: fs)

/-- Skip a value, however deep. -/
def skipValue : Reader Unit :=
  loop (fun frames => do
    match ← peekSolid with
    | none => fail .unfinished
    | some 'n' => word "null"; skipOn frames
    | some 't' => word "true"; skipOn frames
    | some 'f' => word "false"; skipOn frames
    | some '"' => skip; Quote.skipOver; skipOn frames
    | some '[' => skipInto .array frames
    | some '{' => skipInto .object frames
    | some c =>
      if c = '-' ∨ c.isDigit then
        Numeral.skipOver
        skipOn frames
      else fail .malformed)
    []

/-! ## Single values of a wanted kind -/

/-- Read what stands where something else is wanted, as far as it takes to name it. -/
def found : Reader Found := do
  match ← peek with
  | some 'n' => word "null"; return .null
  | some 't' => word "true"; return .bool true
  | some 'f' => word "false"; return .bool false
  | some '"' => skip; return .string (← Quote.read)
  | some '[' => return .array
  | some '{' => return .object
  | some c =>
    if c = '-' ∨ c.isDigit then return .number (← Numeral.read) else fail .malformed
  | none => fail .unfinished

def wrongKind (wanted : Wanted) : Reader α := do mismatch (.wrongKind (← found) wanted)

def text : Reader String := do
  match ← peekSolid with
  | none => fail .unfinished
  | some '"' => skip; Quote.read
  | some _ => wrongKind .text

def textOrNull : Reader (Option String) := do
  match ← peekSolid with
  | some 'n' => word "null"; return none
  | _ => return some (← text)

/-- A map to values that may open `levels` containers. -/
def map (levels : Nat) : Reader (List (String × Value)) := do
  match ← peekSolid with
  | none => fail .unfinished
  | some '{' => skip; members (value levels)
  | some _ => wrongKind .map

end Reader

end TopDown.Json
