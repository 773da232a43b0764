-- Runs that always end. If every step that goes on lowers a number told by what is ahead and what
-- stands on the end mark, then that number bounds the steps of the run.
import TopDown.Proofs.StepLimit

namespace TopDown.Parser

variable {p : Parser}

/-- A number that is never zero, and that consuming a character and expanding lower. -/
structure Potential (p : Parser) where
  value : List Char → List Symbol → Nat
  pos : ∀ v form, 0 < value v form
  consume : ∀ c v form, value v form < value (c :: v) (.terminal c :: form)
  expand : ∀ v nt k form, p.choice? nt (ahead v) = some k →
    value v (p.expansion nt k ++ form) < value v (.nonTerminal nt :: form)

/-- A run from here comes to a verdict within this number of steps. -/
def EndsWithin (p : Parser) (u v : List Char) (form : List Symbol) (limit : Nat) : Prop :=
  ∀ n, ∃ t rs, p.runFrom limit (.midway u v form n) = some (t, rs) ∧
    t.isFinished = true ∧ t.steps ≤ n + limit

/-- One step more than from where the first step leads. -/
theorem endsWithin_succ {u v : List Char} {form : List Symbol} {limit : Nat}
    (h : ∀ n a t, p.Move u n v form a t → t.isFinished = true ∧ t.steps ≤ n + 1 ∨
      ∃ u' v' form', t = .midway u' v' form' (n + 1) ∧ p.EndsWithin u' v' form' limit) :
    p.EndsWithin u v form (limit + 1) := by
  intro n
  obtain ⟨a, t, hmove, hstep⟩ := p.moves u v form n
  have hturn : p.runFrom (limit + 1) (.midway u v form n) = (p.runFrom limit t).map _ :=
    runFrom_succ isDone_midway hstep
  rcases h n a t hmove with ⟨hfin, hle⟩ | ⟨u', v', form', rfl, hrest⟩
  · have hdone : isDone t = true := by
      rw [isDone, hfin, Bool.true_or]
    rw [runFrom_done hdone] at hturn
    exact ⟨t, _, hturn, hfin, by omega⟩
  · obtain ⟨t, rs, hrest, hfin, hle⟩ := hrest (n + 1)
    rw [hrest] at hturn
    exact ⟨t, _, hturn, hfin, by omega⟩

theorem Potential.endsWithin (φ : Potential p) {limit : Nat} {u v : List Char}
    {form : List Symbol} (hle : φ.value v form ≤ limit) : p.EndsWithin u v form limit := by
  induction limit generalizing u v form with
  | zero =>
    have := φ.pos v form
    omega
  | succ limit ih =>
    refine endsWithin_succ fun n a t hmove => ?_
    cases hmove with
    | @consume c v form =>
      have hlt := φ.consume c v form
      exact Or.inr ⟨_, _, _, rfl, ih (by omega)⟩
    | @expand v nt k form hk =>
      have hlt := φ.expand v nt k form hk
      exact Or.inr ⟨_, _, _, rfl, ih (by omega)⟩
    | accept => exact Or.inl ⟨rfl, Nat.le_refl _⟩
    | reject => exact Or.inl ⟨rfl, Nat.le_refl _⟩

/-- Every run comes to a verdict, within the number told by the sentence and the start symbol. -/
theorem Potential.exists_run (φ : Potential p) (w : String) :
    ∃ r, p.run w = some r ∧ r.status.isFinished = true ∧
      r.steps ≤ φ.value w.toList [p.grammar.startSymbol] := by
  obtain ⟨t, rs, hrun, hfin, hle⟩ := φ.endsWithin (u := []) (Nat.le_refl _) 0
  rw [← start_eq_midway] at hrun
  rw [Nat.zero_add] at hle
  exact ⟨_, run_eq_of_runFrom hrun, hfin, hle⟩

end TopDown.Parser
