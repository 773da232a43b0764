-- A run that is taken one step for each line of input, until a line says to stop.
import TopDown.Display.Grammar
import TopDown.Display.Trace

namespace TopDown.Walk

/-- The table, and how to go on. -/
def opening (p : Parser) : String :=
  p.table.text p.grammar none ++ "\n\nPress Enter for the next step, q to stop.\n"

def prompt : String := "> "

/-- The line asks to stop. -/
def stops (line : String) : Bool := Text.trim line == "q"

/-- A step in one line, and after an expansion the table with the cell that was used. -/
def recordText (p : Parser) (r : Record) : String :=
  "#" ++ Grid.pad 4 (toString r.step) ++ " " ++ " │ ".intercalate (r.row p.grammar) ++ "\n" ++
    match r.action.cell? with
    | some cell => p.table.text p.grammar (some cell) ++ "\n"
    | none => ""

/-- One step: the next state and what is shown of the step. -/
def turn (p : Parser) (s : State) : State × String :=
  let (next, record) := p.step s
  (next, (record.map (recordText p)).getD "")

/-- The verdict, or how far the run came. -/
def closing (s : State) : String :=
  if s.isFinished then verdictLine s.status s.steps ++ "\n"
  else "Stopped after " ++ toString s.steps ++ " iterations.\n"

/-- The whole walk from a state: what is shown, and the state in which it ends. A line that is
`none` is not text; the walk breaks off there and ends in no state. -/
def onward (p : Parser) : State → List (Option String) → String × Option State
  | s, lines =>
    if s.isFinished then ("", some s)
    else
      match lines with
      | [] => (prompt, some s)
      | none :: _ => (prompt, none)
      | some line :: lines =>
        if stops line then (prompt, some s)
        else
          let (next, shown) := turn p s
          let (more, last) := onward p next lines
          (prompt ++ shown ++ more, last)

end TopDown.Walk
