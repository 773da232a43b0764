-- A place in a text with what is still unread there, and readers that move it forward.
import TopDown.Json.Fault

namespace TopDown.Json

/-- The place after the character `c`: a line feed starts a line. -/
def Place.past (p : Place) (c : Char) : Place :=
  if c = '\n' then ⟨p.line + 1, 0⟩ else ⟨p.line, p.column + c.utf8Size⟩

structure Cursor where
  rest : List Char
  place : Place

def Cursor.start (text : List Char) : Cursor := ⟨text, ⟨1, 0⟩⟩

/-- Reads something from the text ahead, or finds why it cannot be read. -/
abbrev Reader := StateT Cursor (Except Fault)

namespace Reader

variable {α β σ : Type}

def fail (f : Fault) : Reader α := throw f

/-- The text is not what is asked for; the place is where reading stands. -/
def mismatch (what : Mismatch) : Reader α := do fail (.mismatch what (← get).place)

/-! ## Characters -/

/-- The next character, which stays unread. -/
def peek : Reader (Option Char) := do return (← get).rest.head?

/-- Read one character, if there is one. -/
def take : Reader (Option Char) := do
  match (← get) with
  | ⟨[], _⟩ => return none
  | ⟨c :: rest, place⟩ =>
    set (Cursor.mk rest (place.past c))
    return some c

/-- Read the longest run of characters of a class. -/
def takeWhile (p : Char → Bool) : Reader (List Char) := do
  let ⟨rest, place⟩ ← get
  let run := rest.takeWhile p
  set (Cursor.mk (rest.dropWhile p) (run.foldl Place.past place))
  return run

/-- The blanks of the format: space, tab, line feed and carriage return. -/
def isSpace (c : Char) : Bool := c == ' ' || c == '\t' || c == '\n' || c == '\r'

/-- Skip blanks; the character after them stays unread. -/
def peekSolid : Reader (Option Char) := do
  let _ ← takeWhile isSpace
  peek

/-- Read one character that is known. -/
def skip : Reader Unit := do let _ ← take

/-- Read a character that must be `c`; `wrong` is the fault if it is another. -/
def expect (c : Char) (wrong : Fault) : Reader Unit := do
  match ← take with
  | none => fail .unfinished
  | some d => if d = c then pure () else fail wrong

/-! ## Repetition -/

/-- Run `round` until it gives a result, `fuel` times at most. -/
def rounds (round : σ → Reader (σ ⊕ β)) : Nat → σ → Reader β
  | 0, _ => fail .unfinished
  | fuel + 1, s => do
    match ← round s with
    | .inl s => rounds round fuel s
    | .inr b => return b

/-- Run `round` until it gives a result. A round that gives none must read a character, so there
are at most as many of them as characters, and one more. -/
def loop (round : σ → Reader (σ ⊕ β)) (s : σ) : Reader β := do
  rounds round ((← get).rest.length + 1) s

end Reader

end TopDown.Json
