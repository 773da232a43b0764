-- The FIRST and FOLLOW lists that come with a grammar, in the order in which they are given.
import TopDown.Rows
import TopDown.Symbol

namespace TopDown

structure SymbolSets where
  firstRows : List (List Symbol)
  followRows : List (List Symbol)
  deriving DecidableEq, Repr

namespace SymbolSets

/-- An empty list of each kind for every number below `n`. -/
def new (n : Nat) : SymbolSets := ⟨Rows.grow n [], Rows.grow n []⟩

def first (s : SymbolSets) (nt : Nat) : List Symbol := Rows.row s.firstRows nt

def follow (s : SymbolSets) (nt : Nat) : List Symbol := Rows.row s.followRows nt

def setFirst (s : SymbolSets) (nt : Nat) (members : List Symbol) : SymbolSets :=
  { s with firstRows := Rows.put nt members s.firstRows }

def setFollow (s : SymbolSets) (nt : Nat) (members : List Symbol) : SymbolSets :=
  { s with followRows := Rows.put nt members s.followRows }

/-! ## Laws -/

theorem first_setFirst (s : SymbolSets) (nt nt' : Nat) (members : List Symbol) :
    (s.setFirst nt members).first nt' = if nt = nt' then members else s.first nt' :=
  Rows.row_put nt nt' members s.firstRows

theorem follow_setFollow (s : SymbolSets) (nt nt' : Nat) (members : List Symbol) :
    (s.setFollow nt members).follow nt' = if nt = nt' then members else s.follow nt' :=
  Rows.row_put nt nt' members s.followRows

end SymbolSets

end TopDown
