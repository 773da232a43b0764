-- What the limits of a generator decide. A higher ceiling changes a derivation only if it failed at
-- the ceiling: then it goes on drawing from where it stopped. And the budget and the policy change
-- nothing where the sentence leaves two of the budget over: what is left at a non-terminal is the
-- budget less all that stands to its left, so every choice was among all alternatives.
import Mathlib
import TopDown.Proofs.Scripts

namespace TopDown

/-! ## Drawing on -/

/-- Choices lead from one source to the other. -/
inductive Chooser.Draws {σ : Type} [Chooser σ] : σ → σ → Prop
  | refl (s : σ) : Draws s s
  | step {s t : σ} (n : Nat) : Draws (Chooser.choose n s).2 t → Draws s t

open Chooser (Draws)

theorem Chooser.Draws.trans {σ : Type} [Chooser σ] {s t u : σ} (h : Draws s t) (h' : Draws t u) :
    Draws s u := by
  induction h with
  | refl => exact h'
  | step n _ ih => exact .step n (ih h')

namespace Source

/-- The words that are drawn, in order. -/
def words (s : Source) : List UInt64 := (List.range s.drawn).map s.stream.get

/-- A choice draws words of the same stream. -/
theorem chooseWithin_draws (n fuel : Nat) (s : Source) :
    (chooseWithin n fuel s).2.stream = s.stream ∧ s.drawn ≤ (chooseWithin n fuel s).2.drawn := by
  induction fuel generalizing s with
  | zero => exact ⟨rfl, Nat.le_succ s.drawn⟩
  | succ fuel ih =>
    rw [chooseWithin]
    split
    · exact ⟨rfl, Nat.le_succ s.drawn⟩
    · obtain ⟨hstream, hdrawn⟩ := ih s.advance
      exact ⟨hstream, (Nat.le_succ s.drawn).trans hdrawn⟩

theorem words_prefix_of_le {s t : Source} (hstream : t.stream = s.stream)
    (hdrawn : s.drawn ≤ t.drawn) : s.words <+: t.words := by
  obtain ⟨more, hmore⟩ := Nat.exists_eq_add_of_le hdrawn
  unfold words
  rw [hstream, hmore, List.range_add, List.map_append]
  exact List.prefix_append _ _

/-- What is drawn stays drawn, and more is drawn after it. -/
theorem words_prefix_of_draws {s t : Source} (h : Draws s t) : s.words <+: t.words := by
  induction h with
  | refl => exact List.prefix_rfl
  | @step s t n _ ih =>
    obtain ⟨hstream, hdrawn⟩ := chooseWithin_draws n (s.stream.length - s.drawn) s
    exact (words_prefix_of_le hstream hdrawn).trans ih

end Source

namespace Generator

variable {σ : Type}

/-! ## A higher ceiling -/

section

variable [Chooser σ] {expand expand' : Symbol → Int → Draw σ Derivation} {x : Symbol}
  {xs : List Symbol} {remaining : Int} {source : σ}

/-- The first symbol draws, and the others draw on. -/
theorem draws_expandAll_cons
    (hxs : ∀ remaining source, Draws source (expandAll expand xs remaining source).2) :
    Draws (expand x remaining source).2 (expandAll expand (x :: xs) remaining source).2 := by
  rcases hx : expand x remaining source with ⟨e | d, between⟩
  · rw [expandAll_cons_of_error hx]
    exact .refl between
  · rw [expandAll_cons_of_ok hx]
    exact hxs _ between

theorem draws_expandAll
    (hexpand : ∀ x remaining source, Draws source (expand x remaining source).2) :
    Draws source (expandAll expand xs remaining source).2 := by
  induction xs generalizing remaining source with
  | nil => exact .refl source
  | cons x xs ih => exact (hexpand x remaining source).trans (draws_expandAll_cons fun _ _ => ih)

theorem draws_expand {g : Generator} {levels : Nat} :
    Draws source (g.expand levels x remaining source).2 := by
  induction levels generalizing x remaining source with
  | zero =>
    cases x with
    | nonTerminal => exact .refl source
    | terminal | empty | endMark =>
      rw [expand_leaf rfl]
      exact .refl source
  | succ levels ih =>
    cases x with
    | terminal | empty | endMark =>
      rw [expand_leaf rfl]
      exact .refl source
    | nonTerminal nt =>
      rcases hc : g.candidates nt remaining with _ | ⟨p, ps⟩
      · rw [expand_nonTerminal_of_nil hc]
        exact .refl source
      · rw [expand_nonTerminal_of_cons hc]
        exact .step ps.length (draws_expandAll fun _ _ _ => ih)

/-- What a result becomes under a higher ceiling: it stays, or, if it is a failure at the ceiling,
it becomes what is come to by drawing on. -/
inductive Extends (ceiling : Nat) :
    Except GenerationError Derivation × σ → Except GenerationError Derivation × σ → Prop
  | same (result : Except GenerationError Derivation) (source : σ) :
      Extends ceiling (result, source) (result, source)
  | further {result : Except GenerationError Derivation} {source source' : σ} :
      Draws source source' →
      Extends ceiling (.error (.depthLimitExceeded ceiling), source) (result, source')

variable {ceiling : Nat} {r r' : Except GenerationError Derivation × σ}

/-- What is done with a derivation afterwards makes no difference. -/
theorem Extends.map (h : Extends ceiling r r') (f : Derivation → Derivation) :
    Extends ceiling (r.map (Except.map f) id) (r'.map (Except.map f) id) := by
  cases h with
  | same => exact .same _ _
  | further h => exact .further h

theorem extends_expandAll
    (hexpand : ∀ x remaining source,
      Extends ceiling (expand x remaining source) (expand' x remaining source))
    (hdraws : ∀ x remaining source, Draws source (expand' x remaining source).2) :
    Extends ceiling (expandAll expand xs remaining source)
      (expandAll expand' xs remaining source) := by
  induction xs generalizing remaining source with
  | nil => exact .same _ _
  | cons x xs ih =>
    have hx := hexpand x remaining source
    have hon : Draws (expand' x remaining source).2
        (expandAll expand' (x :: xs) remaining source).2 :=
      draws_expandAll_cons fun _ _ => draws_expandAll hdraws
    generalize hr : expand x remaining source = r at hx
    generalize hr' : expand' x remaining source = r' at hx hon
    cases hx with
    | same result between =>
      rcases result with e | d
      · rw [expandAll_cons_of_error hr, expandAll_cons_of_error hr']
        exact .same _ _
      · rw [expandAll_cons_of_ok hr, expandAll_cons_of_ok hr']
        exact ih.map d.append
    | further hbetween =>
      rw [expandAll_cons_of_error hr]
      exact .further (hbetween.trans hon)

/-- The generator with more levels to go. The induction is on the levels; at the last one the lower
ceiling is met. -/
theorem extends_expand {g : Generator} {levels more : Nat} :
    Extends g.maxDepth (g.expand levels x remaining source)
      (Generator.expand { g with maxDepth := ceiling } (levels + more) x remaining source) := by
  induction levels generalizing x remaining source with
  | zero =>
    cases x with
    | nonTerminal => exact .further draws_expand
    | terminal | empty | endMark =>
      rw [expand_leaf rfl, expand_leaf rfl]
      exact .same _ _
  | succ levels ih =>
    cases x with
    | terminal | empty | endMark =>
      rw [expand_leaf rfl, expand_leaf rfl]
      exact .same _ _
    | nonTerminal nt =>
      have hcandidates : ({ g with maxDepth := ceiling } : Generator).candidates nt remaining =
          g.candidates nt remaining := rfl
      rw [Nat.succ_add]
      rcases hc : g.candidates nt remaining with _ | ⟨p, ps⟩
      · rw [expand_nonTerminal_of_nil hc, expand_nonTerminal_of_nil (hcandidates.trans hc)]
        exact .same _ _
      · rw [expand_nonTerminal_of_cons hc, expand_nonTerminal_of_cons (hcandidates.trans hc)]
        exact (extends_expandAll (fun _ _ _ => ih) fun _ _ _ => draws_expand).map _

theorem extends_deriveFrom {g : Generator} (h : g.maxDepth ≤ ceiling) (x : Symbol) (budget : Int)
    (source : σ) :
    Extends g.maxDepth (g.deriveFrom x budget source)
      (Generator.deriveFrom { g with maxDepth := ceiling } x budget source) := by
  obtain ⟨more, rfl⟩ := Nat.exists_eq_add_of_le h
  have hlevels : g.maxDepth + more + 1 = g.maxDepth + 1 + more := by omega
  unfold deriveFrom
  rw [hlevels]
  exact extends_expand

/-- What is no failure at the ceiling stays. -/
theorem Extends.eq (h : Extends ceiling r r') (hr : r.1 ≠ .error (.depthLimitExceeded ceiling)) :
    r' = r := by
  cases h with
  | same => rfl
  | further => exact absurd rfl hr

/-- Nothing that is drawn is taken back. -/
theorem Extends.draws (h : Extends ceiling r r') : Draws r.2 r'.2 := by
  cases h with
  | same result source => exact .refl source
  | further h => exact h

end

/-! ## Enough of the budget -/

/-- What leaves two of the budget over is derived from any other budget that it leaves two of. -/
theorem expandAll_of_two_over {expand expand' : Symbol → Int → Draw σ Derivation}
    (hexpand : ∀ x (remaining remaining' : Int) source source' d,
      expand x remaining source = (.ok d, source') → d.output.length + 2 ≤ remaining →
      d.output.length + 2 ≤ remaining' → expand' x remaining' source = (.ok d, source'))
    {xs : List Symbol} {remaining remaining' : Int} {source source' : σ} {d : Derivation}
    (h : expandAll expand xs remaining source = (.ok d, source'))
    (hover : d.output.length + 2 ≤ remaining) (hover' : d.output.length + 2 ≤ remaining') :
    expandAll expand' xs remaining' source = (.ok d, source') := by
  induction xs generalizing remaining remaining' source d with
  | nil => exact h
  | cons x xs ih =>
    obtain ⟨first, between, rest, hx, hxs, rfl⟩ := exists_of_expandAll_cons h
    simp only [Derivation.append, List.length_append] at hover hover'
    push_cast at hover hover'
    apply expandAll_cons (hexpand _ _ _ _ _ _ hx (by omega) (by omega))
    exact ih hxs (by omega) (by omega)

theorem expand_of_two_over [Chooser σ] {g : Generator} {policy : ExhaustionPolicy} {levels : Nat}
    {x : Symbol} {remaining remaining' : Int} {source source' : σ} {d : Derivation}
    (h : g.expand levels x remaining source = (.ok d, source'))
    (hover : d.output.length + 2 ≤ remaining) (hover' : d.output.length + 2 ≤ remaining') :
    Generator.expand { g with policy } levels x remaining' source = (.ok d, source') := by
  induction levels generalizing x remaining remaining' source source' d with
  | zero =>
    cases x with
    | nonTerminal => cases h
    | terminal | empty | endMark =>
      rw [expand_leaf rfl] at h ⊢
      exact h
  | succ levels ih =>
    cases x with
    | terminal | empty | endMark =>
      rw [expand_leaf rfl] at h ⊢
      exact h
    | nonTerminal nt =>
      obtain ⟨p, ps, i, between, rest, hc, hi, hrhs, rfl⟩ := exists_of_expand_nonTerminal h
      simp only at hover hover'
      have hc' : Generator.candidates { g with policy } nt remaining' = p :: ps := by
        rw [candidates_eq_productions (by omega)] at hc ⊢
        exact hc
      apply expand_nonTerminal hc' hi rfl
      refine expandAll_of_two_over ?_ hrhs hover hover'
      intro _ _ _ _ _ _ h hover hover'
      exact ih h hover hover'

/-! ## Both limits -/

/-- With a higher ceiling a derivation that succeeds, or finds no alternative, comes to the same and
draws the same; one that fails at its ceiling goes on drawing from where it stopped, so what it has
drawn is the beginning of what is drawn then. With another budget and another policy a sentence that
leaves two of either budget over comes out the same, by the same productions and from the same
words. -/
theorem limits_matter_only_where_they_are_met (g : Generator) (x : Symbol) (budget : Int) :
    (∀ ceiling, g.maxDepth ≤ ceiling →
      (∀ (σ : Type) [Chooser σ] (source source' : σ),
        (∀ d, g.deriveFrom x budget source = (.ok d, source') →
          Generator.deriveFrom { g with maxDepth := ceiling } x budget source =
            (.ok d, source')) ∧
        (∀ symbol, g.deriveFrom x budget source = (.error (.noProductions symbol), source') →
          Generator.deriveFrom { g with maxDepth := ceiling } x budget source =
            (.error (.noProductions symbol), source')) ∧
        ∀ n, g.deriveFrom x budget source = (.error (.depthLimitExceeded n), source') →
          Draws source' (Generator.deriveFrom { g with maxDepth := ceiling } x budget source).2) ∧
      ∀ (source source' : Source) (n : Nat),
        g.deriveFrom x budget source = (.error (.depthLimitExceeded n), source') →
        source'.words <+:
          (Generator.deriveFrom { g with maxDepth := ceiling } x budget source).2.words) ∧
    ∀ (budget' : Int) (policy : ExhaustionPolicy) (σ : Type) [Chooser σ] (source source' : σ)
      (d : Derivation), g.deriveFrom x budget source = (.ok d, source') →
      d.output.length ≤ min (effectiveBudget budget) (effectiveBudget budget') - 2 →
      Generator.deriveFrom { g with policy } x budget' source = (.ok d, source') := by
  refine ⟨fun ceiling h => ⟨fun σ _ source source' => ?_, fun source source' n hn => ?_⟩, ?_⟩
  · have hext := extends_deriveFrom h x budget source
    refine ⟨fun d hd => ?_, fun symbol hs => ?_, fun n hn => ?_⟩
    · rw [hd] at hext
      exact hext.eq nofun
    · rw [hs] at hext
      exact hext.eq nofun
    · rw [hn] at hext
      exact hext.draws
  · have hext := extends_deriveFrom h x budget source
    rw [hn] at hext
    exact Source.words_prefix_of_draws hext.draws
  · intro budget' policy σ _ source source' d hd hover
    exact expand_of_two_over hd (by omega) (by omega)

/-- `S → a T`, and `T` has no alternatives. -/
def barren : Grammar := ⟨"g", 0, ["S", "T"], [[⟨0, [.terminal 'a', .nonTerminal 1]⟩], []]⟩

/-- Three words for `ccc`, which leaves two of a budget of five over. -/
def cccSource : Source :=
  .ofStream (.ofList [Source.wordFor 3 2, Source.wordFor 1 0, Source.wordFor 2 1])

/-- The sentence `ccc` at its ceiling, a failure at the ceiling, and one for want of alternatives,
whose first word is not fit to choose the only alternative. -/
theorem three_runs_under_other_limits :
    (∃ d source', Generator.deriveFrom ⟨BuiltIn.grammar, .unrestricted, 2⟩ (.nonTerminal 0) 5
        cccSource = (.ok d, source') ∧ d.output = ['c', 'c', 'c'] ∧
      Generator.deriveFrom ⟨BuiltIn.grammar, .unrestricted, 9⟩ (.nonTerminal 0) 5 cccSource =
        (.ok d, source') ∧
      Generator.deriveFrom ⟨BuiltIn.grammar, ⟨[.epsilon]⟩, 2⟩ (.nonTerminal 0) (-1) cccSource =
        (.ok d, source')) ∧
    (∃ source', Generator.deriveFrom ⟨BuiltIn.grammar, .unrestricted, 1⟩ (.nonTerminal 0) 5
        cccSource = (.error (.depthLimitExceeded 1), source') ∧
      source'.words <+: (Generator.deriveFrom ⟨BuiltIn.grammar, .unrestricted, 9⟩ (.nonTerminal 0) 5
        cccSource).2.words) ∧
    ∃ source', Generator.deriveFrom ⟨barren, .unrestricted, 1⟩ (.nonTerminal 0) 5 cccSource =
        (.error (.noProductions "T"), source') ∧
      Generator.deriveFrom ⟨barren, .unrestricted, 9⟩ (.nonTerminal 0) 5 cccSource =
        (.error (.noProductions "T"), source') := by
  refine ⟨?_, ?_, ?_⟩
  · obtain ⟨hceiling, hbudget⟩ := limits_matter_only_where_they_are_met
      ⟨BuiltIn.grammar, .unrestricted, 2⟩ (.nonTerminal 0) 5
    have hd : Generator.deriveFrom ⟨BuiltIn.grammar, .unrestricted, 2⟩ (.nonTerminal 0) 5
        cccSource = (.ok ⟨['c', 'c', 'c'], [⟨0, [.terminal 'c', .nonTerminal 3, .terminal 'c']⟩,
          ⟨3, [.nonTerminal 4, .terminal 'c']⟩, ⟨4, [.empty]⟩]⟩, ⟨cccSource.stream, 3⟩) := by
      rfl
    exact ⟨_, _, hd, rfl, ((hceiling 9 (by decide)).1 _ _ _).1 _ hd,
      hbudget (-1) ⟨[.epsilon]⟩ _ _ _ _ hd (by decide)⟩
  · obtain ⟨hceiling, _⟩ := limits_matter_only_where_they_are_met
      ⟨BuiltIn.grammar, .unrestricted, 1⟩ (.nonTerminal 0) 5
    have hd : Generator.deriveFrom ⟨BuiltIn.grammar, .unrestricted, 1⟩ (.nonTerminal 0) 5
        cccSource = (.error (.depthLimitExceeded 1), ⟨cccSource.stream, 2⟩) := by
      rfl
    exact ⟨_, hd, (hceiling 9 (by decide)).2 _ _ _ hd⟩
  · obtain ⟨hceiling, _⟩ := limits_matter_only_where_they_are_met
      ⟨barren, .unrestricted, 1⟩ (.nonTerminal 0) 5
    have hd : Generator.deriveFrom ⟨barren, .unrestricted, 1⟩ (.nonTerminal 0) 5
        cccSource = (.error (.noProductions "T"), ⟨cccSource.stream, 2⟩) := by
      rfl
    exact ⟨_, hd, ((hceiling 9 (by decide)).1 _ _ _).2.1 _ hd⟩

end Generator

end TopDown
