-- The grammar, its FIRST and FOLLOW lists and its table as text.
import TopDown.Grid
import TopDown.Sets
import TopDown.Spelling
import TopDown.Table
import TopDown.Text.Quoted

namespace TopDown

namespace Grammar

/-- The numbers of the registered non-terminals. -/
def ids (g : Grammar) : List Nat := List.range g.names.length

/-- One line for each non-terminal, such as `S → a A a | b B b | c C c`. -/
def listing (g : Grammar) : String :=
  "\n".intercalate (g.ids.map fun nt =>
    g.ruleLine nt (" | ".intercalate ((g.productions nt).map fun p => g.spellAll p.rhs)))

/-- All that the grammar holds: its name, start symbol, terminals, non-terminals and rules. -/
def overview (g : Grammar) : String :=
  let lines := [
    "=== Grammar: " ++ g.name ++ " ===",
    "Start symbol: " ++ g.nameOf g.start ++ " (id=" ++ toString g.start ++ ")",
    "Terminals: " ++ Text.quotedList (g.terminals.map g.spell),
    "Non-terminals: " ++ Text.quotedList g.names,
    "",
    "Rules:"] ++
    (g.allProductions.map fun p => "  " ++ g.write p) ++
    ["=== End Grammar ===", ""]
  String.join (lines.map fun l => l ++ "\n")

end Grammar

/-! ## FIRST and FOLLOW -/

/-- A line such as `FIRST(S) = { a, b, c }` for each non-terminal. -/
def setLines (g : Grammar) (label : String) (members : Nat → List Symbol) : List String :=
  g.ids.map fun nt =>
    label ++ "(" ++ g.nameOf nt ++ ") = \x7b " ++
      ", ".intercalate ((members nt).map g.spell) ++ " \x7d"

/-- The FIRST lines, an empty line, and the FOLLOW lines. -/
def SymbolSets.text (s : SymbolSets) (g : Grammar) : String :=
  "\n".intercalate (setLines g "FIRST" s.first ++ [""] ++ setLines g "FOLLOW" s.follow)

/-! ## The table -/

namespace ParsingTable

/-- The text of a cell: the production that it selects, in brackets if it is highlighted. -/
def cellText (t : ParsingTable) (g : Grammar) (highlight : Option Cell) (cell : Cell) : String :=
  let entry := ((t.production? g cell.1 cell.2).map g.write).getD ""
  if highlight = some cell then "[" ++ entry ++ "]" else entry

/-- A column for each terminal and the end mark, and a row for each non-terminal. -/
def rows (t : ParsingTable) (g : Grammar) (highlight : Option Cell) : List (List String) :=
  ("" :: g.terminals.map g.spell) ::
    g.ids.map fun nt =>
      g.nameOf nt :: g.terminals.map fun lookahead => t.cellText g highlight (nt, lookahead)

def text (t : ParsingTable) (g : Grammar) (highlight : Option Cell) : String :=
  Grid.render (t.rows g highlight)

end ParsingTable

end TopDown
