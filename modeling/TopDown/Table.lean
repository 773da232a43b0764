-- The parsing table: which alternative a non-terminal takes under a lookahead. It is given, not
-- computed, and a later entry for a cell takes the place of an earlier one.
import TopDown.Error
import TopDown.Grammar
import TopDown.Keyed

namespace TopDown

/-- A place of the table: the number of a non-terminal, and a lookahead. -/
abbrev Cell := Nat × Symbol

structure ParsingTable where
  /-- The alternative of each cell that has one. -/
  entries : List (Cell × Nat)
  deriving DecidableEq, Repr

namespace ParsingTable

def empty : ParsingTable := ⟨[]⟩

/-- Enter an alternative, which the grammar must have. -/
def insert (t : ParsingTable) (g : Grammar) (nt : Nat) (lookahead : Symbol) (alternative : Nat) :
    Except GrammarError ParsingTable :=
  if (g.production? nt alternative).isSome then
    .ok ⟨Keyed.put (nt, lookahead) alternative t.entries⟩
  else
    .error (.foreignProduction (g.nameOf nt) ("#" ++ toString alternative))

def lookup (t : ParsingTable) (nt : Nat) (lookahead : Symbol) : Option Nat :=
  Keyed.get? (nt, lookahead) t.entries

/-- The production that a cell selects. An entry whose alternative the grammar lacks selects
none. -/
def production? (t : ParsingTable) (g : Grammar) (nt : Nat) (lookahead : Symbol) :
    Option Production := do
  g.production? nt (← t.lookup nt lookahead)

/-- How many cells have an entry. -/
def size (t : ParsingTable) : Nat := t.entries.length

/-! ## Laws -/

/-- An entry is refused exactly if the grammar lacks its alternative. -/
theorem insert_eq_ok_iff (t u : ParsingTable) (g : Grammar) (nt : Nat) (lookahead : Symbol)
    (k : Nat) :
    t.insert g nt lookahead k = .ok u ↔
      (g.production? nt k).isSome = true ∧ u = ⟨Keyed.put (nt, lookahead) k t.entries⟩ := by
  unfold insert
  split
  · next h => simp [h, eq_comm]
  · next h => simp [h]

end ParsingTable

end TopDown
