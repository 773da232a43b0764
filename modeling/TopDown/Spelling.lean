-- How symbols and productions are written, and how a written production is found again among
-- the alternatives of its non-terminal.
import TopDown.Grammar
import TopDown.Text.Blank

namespace TopDown

/-- The spelling of the empty marker. -/
def emptySpelling : String := "ε"

/-- The spelling of the end mark. -/
def endSpelling : String := "$"

/-- Stands between the two sides of a production. -/
def arrow : Char := '→'

namespace Grammar

/-! ## Writing -/

def spell (g : Grammar) : Symbol → String
  | .terminal c => c.toString
  | .nonTerminal id => g.nameOf id
  | .empty => emptySpelling
  | .endMark => endSpelling

/-- The symbols with one space between them, such as `a A a`. -/
def spellAll (g : Grammar) (xs : List Symbol) : String := " ".intercalate (xs.map g.spell)

/-- The name of a non-terminal, the arrow, and what it stands for. -/
def ruleLine (g : Grammar) (nt : Nat) (right : String) : String :=
  g.nameOf nt ++ " " ++ arrow.toString ++ " " ++ right

/-- A production such as `S → a A a`. -/
def write (g : Grammar) (p : Production) : String := g.ruleLine p.lhs (g.spellAll p.rhs)

/-! ## Reading -/

/-- The first alternative of `nt` whose symbols are spelled by these words. -/
def spelledBy? (g : Grammar) (nt : Nat) (words : List String) : Option Nat :=
  (g.productions nt).findIdx? fun p => p.rhs.map g.spell == words

/-- The alternative of `nt` that `text` writes: the right-hand side alone, or after an arrow
with the name of `nt` before it. Blanks around the name, the arrow and the words are free. -/
def alternativeOf? (g : Grammar) (nt : Nat) (text : String) : Option Nat :=
  match Text.cut arrow text with
  | none => g.spelledBy? nt (Text.words text)
  | some (left, right) =>
    if g.nameOf? nt = some (Text.trim left) then g.spelledBy? nt (Text.words right) else none

end Grammar

end TopDown
