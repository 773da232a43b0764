-- Derivation with one counter. The generator goes down into each non-terminal, and each level takes
-- from the budget that it was given only what it has put out itself. A machine that keeps a list of
-- work instead, and takes from the whole budget all that was put out so far, comes to the same
-- choices, the same output and the same failures.
import Mathlib
import TopDown.Proofs.Generated

namespace TopDown

/-- What the machine has before it: symbols with their depths, the leftmost first, and what was
derived so far. -/
structure Worklist where
  work : List (Symbol × Nat)
  done : Derivation

/-- The machine is at work, or it has come to a result. -/
inductive Progress where
  | working (m : Worklist)
  | finished (result : Except GenerationError Derivation)

namespace Generator

variable {σ : Type} [Chooser σ]

/-! ## The machine -/

/-- Take the leftmost symbol off the list. A terminal is put out, a marker is dropped, and a
non-terminal gives its place to an alternative, one level deeper. The counter is what is left of the
whole budget; where that is one at most, the policy narrows the choice. -/
def turn (g : Generator) (budget : Int) : Progress × σ → Progress × σ
  | (.finished result, source) => (.finished result, source)
  | (.working ⟨[], done⟩, source) => (.finished (.ok done), source)
  | (.working ⟨(.terminal c, _) :: work, done⟩, source) =>
    (.working ⟨work, { done with output := done.output ++ [c] }⟩, source)
  | (.working ⟨(.empty, _) :: work, done⟩, source) => (.working ⟨work, done⟩, source)
  | (.working ⟨(.endMark, _) :: work, done⟩, source) => (.working ⟨work, done⟩, source)
  | (.working ⟨(.nonTerminal nt, depth) :: work, done⟩, source) =>
    if g.maxDepth < depth then
      (.finished (.error (.depthLimitExceeded g.maxDepth)), source)
    else
      let offered :=
        if budget - done.output.length ≤ 1 then g.policy.candidates (g.grammar.productions nt)
        else g.grammar.productions nt
      match offered with
      | [] => (.finished (.error (.noProductions (g.grammar.nameOf nt))), source)
      | p :: ps =>
        let (i, source) := Chooser.choose ps.length source
        let chosen := (p :: ps).get i
        (.working ⟨chosen.rhs.map (·, depth + 1) ++ work,
          { done with productions := done.productions ++ [chosen] }⟩, source)

def turns (g : Generator) (budget : Int) : Nat → Progress × σ → Progress × σ
  | 0, m => m
  | n + 1, m => turns g budget n (turn g budget m)

/-- Some number of turns leads from one to the other. -/
def Leads (g : Generator) (budget : Int) (m m' : Progress × σ) : Prop :=
  ∃ n, turns g budget n m = m'

/-- How the machine goes on when the symbols before `work` came to this result. -/
def resume (work : List (Symbol × Nat)) (done : Derivation) :
    Except GenerationError Derivation × σ → Progress × σ
  | (.error e, source) => (.finished (.error e), source)
  | (.ok d, source) => (.working ⟨work, done.append d⟩, source)

variable {g : Generator} {budget : Int}

/-! ## Turns in a row -/

/-- A non-terminal without an alternative to choose ends the work. -/
theorem turn_of_candidates_nil {nt depth : Nat} {work : List (Symbol × Nat)} {done : Derivation}
    (h : ¬ g.maxDepth < depth) (hc : g.candidates nt (budget - done.output.length) = [])
    (source : σ) :
    turn g budget (.working ⟨(.nonTerminal nt, depth) :: work, done⟩, source) =
      (.finished (.error (.noProductions (g.grammar.nameOf nt))), source) := by
  unfold candidates at hc
  rw [turn, if_neg h]
  simp only [hc]

/-- A non-terminal with alternatives gives its place to the one that is drawn. -/
theorem turn_of_candidates_cons {nt depth : Nat} {work : List (Symbol × Nat)} {done : Derivation}
    {p : Production} {ps : List Production} (h : ¬ g.maxDepth < depth)
    (hc : g.candidates nt (budget - done.output.length) = p :: ps) {source source' : σ}
    {i : Fin (ps.length + 1)} (hi : Chooser.choose ps.length source = (i, source')) :
    turn g budget (.working ⟨(.nonTerminal nt, depth) :: work, done⟩, source) =
      (.working ⟨((p :: ps).get i).rhs.map (·, depth + 1) ++ work,
        { done with productions := done.productions ++ [(p :: ps).get i] }⟩, source') := by
  unfold candidates at hc
  rw [turn, if_neg h]
  simp only [hc, hi]

theorem turns_add (m n : Nat) (s : Progress × σ) :
    turns g budget (m + n) s = turns g budget n (turns g budget m s) := by
  induction m generalizing s with
  | zero => rw [Nat.zero_add, turns]
  | succ m ih => rw [Nat.succ_add, turns, turns, ih]

theorem turns_finished (n : Nat) (result : Except GenerationError Derivation) (source : σ) :
    turns g budget n (.finished result, source) = (.finished result, source) := by
  induction n with
  | zero => rfl
  | succ n ih => rw [turns, turn, ih]

theorem Leads.refl (s : Progress × σ) : Leads g budget s s := ⟨0, rfl⟩

theorem Leads.trans {s t u : Progress × σ} (h : Leads g budget s t) (h' : Leads g budget t u) :
    Leads g budget s u := by
  obtain ⟨m, rfl⟩ := h
  obtain ⟨n, rfl⟩ := h'
  exact ⟨m + n, turns_add m n s⟩

theorem Leads.head {s t u : Progress × σ} (h : turn g budget s = t) (h' : Leads g budget t u) :
    Leads g budget s u := by
  obtain ⟨n, rfl⟩ := h'
  exact ⟨n + 1, by rw [turns, h]⟩

theorem leads_of_turn {s t : Progress × σ} (h : turn g budget s = t) : Leads g budget s t :=
  .head h (.refl t)

/-! ## The recursion, as the machine goes through it -/

/-- A row of symbols, if the machine goes through each of them as it is expanded. What the left
siblings put out has gone from the counter when a symbol is taken, and so it has from the budget
that the symbol is given. -/
theorem leads_expandAll {expand : Symbol → Int → Draw σ Derivation} {depth : Nat}
    (hsymbol : ∀ x work done source,
      Leads g budget (.working ⟨(x, depth) :: work, done⟩, source)
        (resume work done (expand x (budget - done.output.length) source)))
    (xs : List Symbol) (work : List (Symbol × Nat)) (done : Derivation) (source : σ) :
    Leads g budget (.working ⟨xs.map (·, depth) ++ work, done⟩, source)
      (resume work done (expandAll expand xs (budget - done.output.length) source)) := by
  induction xs generalizing done source with
  | nil =>
    have hdone : done.append .empty = done := by
      simp only [Derivation.append, Derivation.empty, List.append_nil]
    rw [expandAll, resume, hdone]
    exact .refl _
  | cons x xs ih =>
    have hx := hsymbol x (xs.map (·, depth) ++ work) done source
    rw [expandAll]
    rcases hr : expand x (budget - done.output.length) source with ⟨e | d, source'⟩
    · rw [hr] at hx
      exact hx
    · rw [hr] at hx
      have hcounter : budget - (done.append d).output.length =
          budget - done.output.length - d.output.length := by
        simp only [Derivation.append, List.length_append]
        omega
      have hxs := ih (done.append d) source'
      rw [hcounter] at hxs
      simp only
      rcases hrs : expandAll expand xs (budget - done.output.length - d.output.length) source' with
        ⟨e | d', source''⟩
      · rw [hrs] at hxs
        exact hx.trans hxs
      · have hdone : (done.append d).append d' = done.append (d.append d') := by
          simp only [Derivation.append, List.append_assoc]
        rw [hrs, resume, hdone] at hxs
        exact hx.trans hxs

theorem leads_expand_leaf {levels depth : Nat} {x : Symbol} (hx : x.isNonTerminal = false)
    (work : List (Symbol × Nat)) (done : Derivation) (source : σ) :
    Leads g budget (.working ⟨(x, depth) :: work, done⟩, source)
      (resume work done (g.expand levels x (budget - done.output.length) source)) := by
  rw [expand_leaf hx, resume, Derivation.append, List.append_nil]
  cases x with
  | nonTerminal => cases hx
  | terminal c => exact leads_of_turn rfl
  | empty | endMark =>
    rw [Symbol.char?, Option.toList_none, List.append_nil]
    exact leads_of_turn rfl

/-- A symbol at a depth with so many levels left. The induction is on the levels: the alternative
that is chosen is one level deeper. -/
theorem leads_expand {levels depth : Nat} (h : levels + depth = g.maxDepth + 1) (x : Symbol)
    (work : List (Symbol × Nat)) (done : Derivation) (source : σ) :
    Leads g budget (.working ⟨(x, depth) :: work, done⟩, source)
      (resume work done (g.expand levels x (budget - done.output.length) source)) := by
  induction levels generalizing depth x work done source with
  | zero =>
    cases x with
    | terminal | empty | endMark => exact leads_expand_leaf rfl work done source
    | nonTerminal nt =>
      apply leads_of_turn
      rw [turn, if_pos (by omega)]
      rfl
  | succ levels ih =>
    cases x with
    | terminal | empty | endMark => exact leads_expand_leaf rfl work done source
    | nonTerminal nt =>
      have hdepth : ¬ g.maxDepth < depth := by omega
      rw [expand]
      rcases hc : g.candidates nt (budget - done.output.length) with _ | ⟨p, ps⟩
      · exact leads_of_turn (turn_of_candidates_nil hdepth hc source)
      · simp only
        rcases hi : Chooser.choose ps.length source with ⟨i, source'⟩
        let done' := { done with productions := done.productions ++ [(p :: ps)[i]] }
        have hnext : levels + (depth + 1) = g.maxDepth + 1 := by omega
        have hrhs := leads_expandAll (ih hnext) (p :: ps)[i].rhs work done' source'
        refine .head (turn_of_candidates_cons hdepth hc hi) ?_
        rcases hr : expandAll (g.expand levels) (p :: ps)[i].rhs (budget - done.output.length)
          source' with ⟨e | d, source''⟩
        · rw [hr] at hrhs
          exact hrhs
        · have hdone : done'.append d =
              done.append ⟨d.output, (p :: ps)[i] :: d.productions⟩ := by
            simp only [done', Derivation.append, List.append_assoc, List.singleton_append]
          rw [hr, resume, hdone] at hrhs
          exact hrhs

/-- The machine on one symbol comes to the result of the recursion, whatever that is, after the same
choices in the same order: the choices may be drawn from anything, so also from a source that keeps
a record of them. -/
theorem one_counter_derives_the_same (g : Generator) (x : Symbol) (budget : Int) (source : σ) :
    ∃ n, ∀ more,
      turns g (effectiveBudget budget) (n + more) (.working ⟨[(x, 0)], .empty⟩, source) =
        (.finished (g.deriveFrom x budget source).1, (g.deriveFrom x budget source).2) := by
  suffices h : Leads g (effectiveBudget budget) (.working ⟨[(x, 0)], .empty⟩, source)
      (.finished (g.deriveFrom x budget source).1, (g.deriveFrom x budget source).2) by
    obtain ⟨n, hn⟩ := h
    refine ⟨n, fun more => ?_⟩
    rw [turns_add, hn, turns_finished]
  have hlevels : g.maxDepth + 1 + 0 = g.maxDepth + 1 := rfl
  have hx : Leads g (effectiveBudget budget) _ _ := leads_expand hlevels x [] .empty source
  have hbudget : effectiveBudget budget - (Derivation.empty.output.length : Int) =
      effectiveBudget budget := Int.sub_zero _
  rw [hbudget] at hx
  refine hx.trans ?_
  unfold deriveFrom
  rcases g.expand (g.maxDepth + 1) x (effectiveBudget budget) source with ⟨e | d, source'⟩
  · exact .refl _
  · exact leads_of_turn rfl

end Generator

end TopDown
