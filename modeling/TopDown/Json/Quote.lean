-- Strings of the JSON format. A string that is kept must be text: an escaped surrogate needs its
-- partner. A string that is skipped need not be.
import TopDown.Json.Cursor

namespace TopDown.Json.Quote

open Reader

/-! ## Escapes by number -/

def hexValue? (c : Char) : Option Nat :=
  let n := c.toNat
  if c.isDigit then some (n - 48)
  else if 'a' ≤ c ∧ c ≤ 'f' then some (n - 87)
  else if 'A' ≤ c ∧ c ≤ 'F' then some (n - 55)
  else none

/-- The number that four hexadecimal digits write. -/
def hexNumber? (cs : List Char) : Option Nat := do
  let ds ← cs.mapM hexValue?
  return ds.foldl (fun n d => n * 16 + d) 0

/-- Read four hexadecimal digits. The text ends too early if fewer than four bytes are left. -/
def readUnit : Reader Nat := do
  let ahead := (← get).rest
  match ahead with
  | a :: b :: c :: d :: _ =>
    match hexNumber? [a, b, c, d] with
    | some n => skip; skip; skip; skip; return n
    | none => fail .malformed
  | _ =>
    if ahead.foldl (fun n c => n + c.utf8Size) 0 < 4 then fail .unfinished else fail .malformed

def isLeading (n : Nat) : Bool := 0xD800 ≤ n && n ≤ 0xDBFF

def isTrailing (n : Nat) : Bool := 0xDC00 ≤ n && n ≤ 0xDFFF

/-- The character that a number, or two of a surrogate pair, stand for. -/
def readNumbered : Reader Char := do
  let n ← readUnit
  if isTrailing n then fail .malformed
  else if isLeading n then
    expect '\\' .malformed
    expect 'u' .malformed
    let m ← readUnit
    if isTrailing m then return Char.ofNat (0x10000 + (n - 0xD800) * 0x400 + (m - 0xDC00))
    else fail .malformed
  else return Char.ofNat n

/-! ## Strings -/

/-- The character that a letter after a backslash stands for. -/
def lettered? : Char → Option Char
  | '"' => some '"'
  | '\\' => some '\\'
  | '/' => some '/'
  | 'b' => some '\x08'
  | 'f' => some '\x0c'
  | 'n' => some '\n'
  | 'r' => some '\r'
  | 't' => some '\t'
  | _ => none

/-- Read up to the closing quote, with `numbered` for an escape by number. The characters so far
are in `back`, the last one first. -/
def body (numbered : Reader Char) : Reader (List Char) :=
  loop (fun back => do
    match ← take with
    | none => fail .unfinished
    | some '"' => return .inr back.reverse
    | some '\\' =>
      match ← take with
      | none => fail .unfinished
      | some 'u' => return .inl ((← numbered) :: back)
      | some c =>
        match lettered? c with
        | some d => return .inl (d :: back)
        | none => fail .malformed
    | some c => if c.toNat < 0x20 then fail .malformed else return .inl (c :: back))
    []

/-- Read the rest of a string whose opening quote is read. -/
def read : Reader String := do return String.ofList (← body readNumbered)

/-- Skip the rest of a string whose opening quote is read. -/
def skipOver : Reader Unit := do
  let _ ← body (do let _ ← readUnit; return '?')

end TopDown.Json.Quote
