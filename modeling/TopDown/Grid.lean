-- Text in columns: cells flush left, a bar between columns, and a rule under the first row.
-- Widths count characters, and no line of cells ends in a blank.
import TopDown.Text.Blank

namespace TopDown.Grid

/-- The number of columns: the length of the longest row. -/
def columns (rows : List (List String)) : Nat := (rows.map List.length).foldl max 0

/-- The length of the longest cell of a column. -/
def width (rows : List (List String)) (column : Nat) : Nat :=
  (rows.map fun row => (row.getD column "").length).foldl max 0

def widths (rows : List (List String)) : List Nat := (List.range (columns rows)).map (width rows)

/-- Spaces after the text, up to a width. -/
def pad (w : Nat) (s : String) : String := s ++ String.ofList (List.replicate (w - s.length) ' ')

/-- The cells of a row, padded; a cell that is not there is empty. -/
def cells (ws : List Nat) (row : List String) : List String :=
  ws.mapIdx fun column w => pad w (row.getD column "")

def line (ws : List Nat) (row : List String) : String :=
  Text.trimEnd (" │ ".intercalate (cells ws row))

def rule (ws : List Nat) : String :=
  "─┼─".intercalate (ws.map fun w => String.ofList (List.replicate w '─'))

def lines (rows : List (List String)) : List String :=
  let ws := widths rows
  match rows with
  | [] => []
  | header :: body => line ws header :: rule ws :: body.map (line ws)

def render (rows : List (List String)) : String := "\n".intercalate (lines rows)

end TopDown.Grid
