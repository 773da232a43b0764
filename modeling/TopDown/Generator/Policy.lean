-- What the generator prefers when its budget is used up.
import TopDown.Configuration.Basic

namespace TopDown

/-- A class of productions. -/
inductive Preference where
  /-- The right-hand side is the empty marker alone. -/
  | epsilon
  /-- The right-hand side holds this symbol. -/
  | mentions (x : Symbol)
  deriving DecidableEq, Repr

def Preference.admits : Preference → Production → Bool
  | epsilon, p => p.isEpsilon
  | mentions x, p => p.mentions x

/-- Preferences, the strongest first. -/
structure ExhaustionPolicy where
  preferences : List Preference
  deriving DecidableEq, Repr

namespace ExhaustionPolicy

/-- No preference: every alternative stays open. -/
def unrestricted : ExhaustionPolicy := ⟨[]⟩

/-- The empty production before all, then any that leads to the closing non-terminal. -/
def ofConfiguration (c : Configuration) : ExhaustionPolicy :=
  ⟨.epsilon :: (c.closing.map fun id => Preference.mentions (.nonTerminal id)).toList⟩

/-- The alternatives that the first preference with any admits, or all of them. -/
def candidates (policy : ExhaustionPolicy) (ps : List Production) : List Production :=
  (policy.preferences.findSome? fun f =>
    let preferred := ps.filter f.admits
    if preferred.isEmpty then none else some preferred).getD ps

end ExhaustionPolicy

end TopDown
