-- What the generator can produce. Whatever is chosen, the output is read off a leftmost derivation.
-- And every derivation tree is the one that some random words choose: while more than one character
-- of the budget is left all alternatives are open, and there is a fit word for each of them.
import Mathlib
import TopDown.Proofs.BuiltIn.Loaded
import TopDown.Proofs.Trees

namespace TopDown

/-! ## Words that choose -/

namespace Source

/-- The least word that chooses number `i` of `k` alternatives. -/
def wordFor (k i : Nat) : UInt64 := .ofNat ((i * UInt64.size + (k - 1)) / k)

/-- The words of `back` are drawn, and those of `ahead` are to come. -/
def between (back ahead : List UInt64) : Source := ⟨.ofList (back ++ ahead), back.length⟩

end Source

/-! ## The words that choose a tree -/

/-- A word for each choice of an alternative, in the order of the productions. -/
def Grammar.Forest.script {g : Grammar} : {xs : List Symbol} → g.Forest xs → List UInt64
  | _, nil => []
  | _, leaf _ rest => rest.script
  | .nonTerminal nt :: _, node k _ _ below rest =>
    Source.wordFor (g.productions nt).length k :: (below.script ++ rest.script)

namespace Generator

open Source (between)

/-- No list of alternatives is longer than there are words of 64 bits to choose from it. -/
def Choosable (g : Grammar) : Prop := ∀ ps ∈ g.rules, ps.length ≤ UInt64.size

instance (g : Grammar) : Decidable (Choosable g) := by
  unfold Choosable
  infer_instance

theorem Choosable.length_le {g : Grammar} (hg : Choosable g) {nt k : Nat} {p : Production}
    (hp : g.production? nt k = some p) : (g.productions nt).length ≤ UInt64.size := by
  have hlt := Grammar.lt_length_of_production? hp
  have hrow : g.productions nt = g.rules[nt] := by
    simp [Grammar.productions, Rows.row, List.getElem?_eq_getElem hlt]
  rw [hrow]
  exact hg _ (List.getElem_mem hlt)

variable {g : Generator}

theorem candidates_eq_productions {nt : Nat} {remaining : Int} (h : 2 ≤ remaining) :
    g.candidates nt remaining = g.grammar.productions nt := by
  unfold candidates
  rw [if_neg (by omega)]

/-- The production that is chosen, and what its right-hand side expands to. -/
theorem expand_nonTerminal {σ : Type} [Chooser σ] {levels nt : Nat} {remaining : Int}
    {source source' source'' : σ} {p q : Production} {qs : List Production}
    {i : Fin (qs.length + 1)} {d : Derivation} (hc : g.candidates nt remaining = q :: qs)
    (hi : Chooser.choose qs.length source = (i, source')) (hp : (q :: qs)[i] = p)
    (hd : expandAll (g.expand levels) p.rhs remaining source' = (.ok d, source'')) :
    g.expand (levels + 1) (.nonTerminal nt) remaining source =
      (.ok ⟨d.output, p :: d.productions⟩, source'') := by
  subst hp
  rw [expand, hc]
  simp only [hi, hd]

theorem expandAll_singleton {σ : Type} (expand : Symbol → Int → Draw σ Derivation) (x : Symbol)
    (remaining : Int) (source : σ) :
    expandAll expand [x] remaining source = expand x remaining source := by
  rw [expandAll]
  rcases expand x remaining source with ⟨_ | d, source'⟩
  · rfl
  · simp only [expandAll, Derivation.append, Derivation.empty, List.append_nil]

theorem expandAll_cons {σ : Type} {expand : Symbol → Int → Draw σ Derivation} {x : Symbol}
    {xs : List Symbol} {remaining : Int} {source source' source'' : σ} {d e : Derivation}
    (hx : expand x remaining source = (.ok d, source'))
    (hxs : expandAll expand xs (remaining - d.output.length) source' = (.ok e, source'')) :
    expandAll expand (x :: xs) remaining source = (.ok (d.append e), source'') := by
  rw [expandAll, hx]
  simp only [hxs]

end Generator

end TopDown
