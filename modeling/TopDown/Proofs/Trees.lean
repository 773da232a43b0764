-- Derivation trees. A tree carries the alternatives that it applies, so every tree is one of its
-- grammar, and every string that a symbol derives is read off the leaves of a tree.
import TopDown.Proofs.Generated

namespace TopDown

/-- Trees for symbols in a row. A non-terminal has the trees of one of its alternatives below it;
every other symbol is a leaf. -/
inductive Grammar.Forest (g : Grammar) : List Symbol → Type
  | nil : Forest g []
  | leaf {x : Symbol} {xs : List Symbol} :
      x.isNonTerminal = false → Forest g xs → Forest g (x :: xs)
  | node {nt : Nat} {xs : List Symbol} (k : Nat) (p : Production) :
      g.production? nt k = some p → Forest g p.rhs → Forest g xs →
      Forest g (.nonTerminal nt :: xs)

namespace Grammar.Forest

variable {g : Grammar}

/-- The characters of the leaves. The two markers have none. -/
def output : {xs : List Symbol} → g.Forest xs → List Char
  | _, nil => []
  | x :: _, leaf _ rest => x.char?.toList ++ rest.output
  | _, node _ _ _ below rest => below.output ++ rest.output

/-- The productions, each before those of the trees below it. -/
def productions : {xs : List Symbol} → g.Forest xs → List Production
  | _, nil => []
  | _, leaf _ rest => rest.productions
  | _, node _ p _ below rest => p :: (below.productions ++ rest.productions)

/-- What is read off the trees. -/
def derivation {xs : List Symbol} (t : g.Forest xs) : Derivation := ⟨t.output, t.productions⟩

end Grammar.Forest

end TopDown
