-- When a run never ends: exactly if, under one lookahead, it comes to a non-terminal again on top of
-- its own expansion, with nothing below taken off the stack in between. One direction takes the
-- deepest states of a run that never ends, of which two must have the same non-terminal on top. The
-- other replays the expansion, which does not look at what is below.
import Mathlib
import TopDown.Proofs.Stepping

namespace TopDown.Parser

variable {p : Parser} {w : String}

/-! ## The states of a run by number -/

/-- The state of the run on `w` after `n` steps. It stays when there is a verdict. -/
def after (p : Parser) (w : String) : Nat → State
  | 0 => p.start w
  | n + 1 => (p.step (p.after w n)).1

/-- The step from here is an expansion. -/
def Expands (p : Parser) (s : State) : Prop :=
  ∃ r nt x k, (p.step s).2 = some r ∧ r.action = .expand nt x k

/-- The state after `j` steps has the non-terminal on top that the state after `i` steps had, there
are only expansions between the two, and none of them reaches below the earlier one's top. -/
structure Recurs (p : Parser) (w : String) (i j : Nat) : Prop where
  lt : i < j
  top_eq : ∃ nt, (p.after w i).top? = some (.nonTerminal nt) ∧
    (p.after w j).top? = some (.nonTerminal nt)
  expands : ∀ k, i ≤ k → k < j → p.Expands (p.after w k)
  above : ∀ k, i ≤ k → k ≤ j → (p.after w i).stack.length ≤ (p.after w k).stack.length

theorem after_of_reaches {rs : List Record} {t : State} (h : p.Reaches (p.start w) rs t) :
    p.after w rs.length = t := by
  induction h with
  | refl => rfl
  | step _ hstep ih =>
    rw [List.length_append, List.length_singleton, after, ih, hstep]

theorem reaches_after {n : Nat} (h : ∀ m < n, (p.after w m).isFinished = false) :
    ∃ rs, rs.length = n ∧ p.Reaches (p.start w) rs (p.after w n) := by
  induction n with
  | zero => exact ⟨[], rfl, .refl _⟩
  | succ n ih =>
    obtain ⟨rs, hlen, hreach⟩ := ih fun m hm => h m (by omega)
    obtain ⟨next, r, hstep⟩ := exists_record (p := p) (h n (by omega))
    refine ⟨rs ++ [r], by simp [hlen], ?_⟩
    rw [after, hstep]
    exact hreach.step hstep

theorem isFinished_after_of_le {m n : Nat} (hle : m ≤ n)
    (h : (p.after w m).isFinished = true) : (p.after w n).isFinished = true := by
  induction n, hle using Nat.le_induction with
  | base => exact h
  | succ n _ ih => rw [after, step_finished ih, ih]

theorem exists_midway {n : Nat} (h : (p.after w n).isFinished = false) :
    ∃ u v form, p.after w n = .midway u v form n := by
  have hearlier : ∀ m < n, (p.after w m).isFinished = false := by
    intro m hm
    by_contra hfin
    rw [Bool.not_eq_false] at hfin
    rw [isFinished_after_of_le hm.le hfin] at h
    cases h
  obtain ⟨rs, rfl, hreach⟩ := reaches_after hearlier
  generalize p.after w rs.length = t at h hreach
  cases stands_of_reaches hreach with
  | running => exact ⟨_, _, _, rfl⟩
  | rejected => cases h
  | accepted => cases h

/-- From any state on, a run that comes to a verdict ends. -/
theorem exists_runFrom_of_finished {i d : Nat} (h : (p.after w (i + d)).isFinished = true) :
    ∃ fuel t rs, p.runFrom fuel (p.after w i) = some (t, rs) := by
  induction d generalizing i with
  | zero =>
    have hdone : isDone (p.after w i) = true := by
      rw [isDone, show (p.after w i).isFinished = true from h, Bool.true_or]
    exact ⟨0, _, _, runFrom_done hdone⟩
  | succ d ih =>
    cases hdone : isDone (p.after w i) with
    | true => exact ⟨0, _, _, runFrom_done hdone⟩
    | false =>
      obtain ⟨next, r, hstep⟩ := exists_record (p := p) (isFinished_of_isDone_eq_false hdone)
      have hnext : p.after w (i + 1) = next := by rw [after, hstep]
      obtain ⟨fuel, t, rs, hrun⟩ := ih (i := i + 1) (by rwa [Nat.add_right_comm])
      rw [hnext] at hrun
      exact ⟨fuel + 1, t, r :: rs, by rw [runFrom_succ hdone hstep, hrun]; rfl⟩

/-- A run has no report exactly if it never comes to a verdict. -/
theorem run_eq_none_iff : p.run w = none ↔ ∀ n, (p.after w n).isFinished = false := by
  constructor
  · intro h n
    by_contra hfin
    rw [Bool.not_eq_false] at hfin
    obtain ⟨fuel, t, rs, hrun⟩ := exists_runFrom_of_finished (i := 0) ((Nat.zero_add n).symm ▸ hfin)
    rw [run_eq_of_runFrom hrun] at h
    cases h
  · intro h
    by_contra hrun
    obtain ⟨r, hr⟩ := Option.ne_none_iff_exists'.mp hrun
    obtain ⟨t, hreach, hdone, _⟩ := reaches_of_runWithin hr
    rw [hreach.isDone_eq, ← after_of_reaches hreach, h] at hdone
    cases hdone

/-! ## Expansions that do not look below -/

/-- Under the lookahead `x`, some `n` expansions turn one form into another. -/
inductive Unfolds (p : Parser) (x : Symbol) (form : List Symbol) : Nat → List Symbol → Prop
  | refl : Unfolds p x form 0 form
  | step {nt k n : Nat} {rest : List Symbol} :
      Unfolds p x form n (.nonTerminal nt :: rest) → p.choice? nt x = some k →
      Unfolds p x form (n + 1) (p.expansion nt k ++ rest)

variable {x : Symbol}

/-- A form that settles does so by way of whatever it unfolds to. -/
theorem Unfolds.settles {form form' rest : List Symbol} {n l : Nat} (h : p.Unfolds x form n form')
    (hs : p.Settles x form l rest) : ∃ m, l = n + m ∧ p.Settles x form' m rest := by
  induction h with
  | refl => exact ⟨l, (Nat.zero_add l).symm, hs⟩
  | step _ hk ih =>
    obtain ⟨m, rfl, hm⟩ := ih
    cases hm with
    | stop hstuck =>
      rw [hstuck _ rfl] at hk
      cases hk
    | expand hk' hm =>
      rw [hk] at hk'
      cases hk'
      exact ⟨_, by omega, hm⟩

/-- What unfolds to itself with more behind it does not settle, since it would have to settle in
fewer expansions than it takes. -/
theorem Unfolds.not_settles {y : Symbol} {above below rest : List Symbol} {n l : Nat}
    (h : p.Unfolds x [y] n (y :: above)) (hn : 0 < n) : ¬ p.Settles x (y :: below) l rest := by
  intro hs
  rw [← List.singleton_append] at hs
  obtain ⟨m, mid, hm, _⟩ := hs.split
  obtain ⟨m', rfl, hm'⟩ := h.settles hm
  rw [← List.singleton_append] at hm'
  obtain ⟨m'', mid', hm'', hsum⟩ := hm'.split
  have hunique := (hm''.unique hm).1
  rcases hsum with ⟨_, l', _, hsum⟩ | ⟨hsum, _⟩ <;> omega

theorem Expands.isFinished_eq_false {s : State} (h : p.Expands s) : s.isFinished = false := by
  by_contra hfin
  rw [Bool.not_eq_false] at hfin
  obtain ⟨r, _, _, _, hr, _⟩ := h
  rw [step_finished hfin] at hr
  cases hr

theorem Expands.midway {u v : List Char} {form : List Symbol} {n : Nat}
    (h : p.Expands (.midway u v form n)) :
    ∃ nt k rest, form = .nonTerminal nt :: rest ∧ p.choice? nt (ahead v) = some k ∧
      (p.step (.midway u v form n)).1 = .midway u v (p.expansion nt k ++ rest) (n + 1) := by
  obtain ⟨r, nt, y, k, hr, ha⟩ := h
  obtain ⟨a, t, hmove, hstep⟩ := p.moves u v form n
  rw [hstep] at hr ⊢
  cases hr
  cases hmove with
  | expand hk => exact ⟨_, _, _, rfl, hk, rfl⟩
  | consume | accept | reject => cases ha

/-- An expansion that leaves something above `below` goes on with what was unfolded there. -/
theorem Unfolds.exists_succ {u v : List Char} {form top below : List Symbol} {d n : Nat}
    (h : p.Unfolds (ahead v) form d top) (hne : top ≠ [])
    (hstate : p.after w n = .midway u v (top ++ below) n) (hexpands : p.Expands (p.after w n))
    (habove : below.length + 1 < (p.after w (n + 1)).stack.length) :
    ∃ top', top' ≠ [] ∧ p.Unfolds (ahead v) form (d + 1) top' ∧
      p.after w (n + 1) = .midway u v (top' ++ below) (n + 1) := by
  rw [hstate] at hexpands
  obtain ⟨nt, k, rest, hform, hk, hnext⟩ := hexpands.midway
  rw [← hstate] at hnext
  rcases top with _ | ⟨y, top⟩
  · exact absurd rfl hne
  · rw [List.cons_append] at hform
    obtain ⟨rfl, rfl⟩ := List.cons.inj hform
    rw [← List.append_assoc] at hnext
    refine ⟨p.expansion nt k ++ top, ?_, h.step hk, hnext⟩
    intro hnil
    rw [hnil] at hnext
    rw [after, hnext] at habove
    simp [State.midway] at habove

/-- Between the two states of a recurrence the expansions take place above what is below. -/
theorem Recurs.exists_unfolds {i j : Nat} (h : p.Recurs w i j) :
    ∃ u v nt above below, p.after w i = .midway u v (.nonTerminal nt :: below) i ∧
      p.Unfolds (ahead v) [.nonTerminal nt] (j - i) (.nonTerminal nt :: above) := by
  obtain ⟨nt, hi, hj⟩ := h.top_eq
  have hlt := h.lt
  obtain ⟨u, v, form, hmid⟩ := exists_midway (h.expands i (Nat.le_refl i) hlt).isFinished_eq_false
  obtain ⟨below, rfl⟩ : ∃ below, form = .nonTerminal nt :: below := by
    rw [hmid] at hi
    rcases form with _ | ⟨y, below⟩
    · cases hi
    · cases hi
      exact ⟨below, rfl⟩
  -- The induction is on the number of expansions from the earlier state.
  have hlevel : ∀ d, i + d ≤ j → ∃ top, top ≠ [] ∧ p.Unfolds (ahead v) [.nonTerminal nt] d top ∧
      p.after w (i + d) = .midway u v (top ++ below) (i + d) := by
    intro d hd
    induction d with
    | zero => exact ⟨[.nonTerminal nt], by simp, .refl, hmid⟩
    | succ d ih =>
      obtain ⟨top, hne, hunfolds, hstate⟩ := ih (by omega)
      have habove := h.above (i + d + 1) (by omega) hd
      have hheight : (p.after w i).stack.length = below.length + 1 + 1 := by
        simp [hmid, State.midway]
      have hexpands := h.expands (i + d) (by omega) (by omega)
      refine hunfolds.exists_succ (n := i + d) hne hstate hexpands ?_
      omega
  obtain ⟨top, hne, hunfolds, hstate⟩ := hlevel (j - i) (by omega)
  rw [Nat.add_sub_cancel' hlt.le] at hstate
  rw [hstate] at hj
  rcases top with _ | ⟨y, above⟩
  · exact absurd rfl hne
  · cases hj
    exact ⟨u, v, nt, above, below, hmid, hunfolds⟩

theorem Recurs.isFinished_eq_false {i j : Nat} (h : p.Recurs w i j) (n : Nat) :
    (p.after w n).isFinished = false := by
  obtain ⟨u, v, nt, above, below, hmid, hunfolds⟩ := h.exists_unfolds
  by_contra hfin
  rw [Bool.not_eq_false] at hfin
  have hlater := isFinished_after_of_le (Nat.le_add_left n i) hfin
  obtain ⟨fuel, t, rs, hrun⟩ := exists_runFrom_of_finished hlater
  rw [hmid] at hrun
  have hends : p.EndsIn v (.nonTerminal nt :: below) rs.length := ⟨fuel, u, i, t, rs, hrun, rfl⟩
  obtain ⟨l, rest, hsettles, _⟩ := hends.settles
  exact hunfolds.not_settles (Nat.sub_pos_of_lt h.lt) hsettles

/-! ## Runs that never end -/

/-- Behind any place a sequence of numbers has one that no later one is below. -/
theorem exists_lowest (f : Nat → Nat) (n : Nat) : ∃ i, n ≤ i ∧ ∀ m, i ≤ m → f i ≤ f m := by
  induction hf : f n using Nat.strong_induction_on generalizing n with
  | h a ih =>
    by_cases hlow : ∀ m, n ≤ m → f n ≤ f m
    · exact ⟨n, Nat.le_refl n, hlow⟩
    · push Not at hlow
      obtain ⟨m, hm, hlt⟩ := hlow
      obtain ⟨i, hi, hmin⟩ := ih (f m) (hf ▸ hlt) m rfl
      exact ⟨i, hm.trans hi, hmin⟩

/-- A step that does not end the run consumes, or expands a non-terminal that has alternatives. -/
theorem remaining_after_succ {n : Nat} (h : (p.after w n).isFinished = false)
    (h' : (p.after w (n + 1)).isFinished = false) :
    (p.after w (n + 1)).remaining.length < (p.after w n).remaining.length ∨
      ((p.after w (n + 1)).remaining.length = (p.after w n).remaining.length ∧
        p.Expands (p.after w n) ∧
        ∃ nt < p.grammar.rules.length, (p.after w n).top? = some (.nonTerminal nt)) := by
  obtain ⟨u, v, form, hmid⟩ := exists_midway h
  obtain ⟨a, t, hmove, hstep⟩ := p.moves u v form n
  rw [← hmid] at hstep
  have hnext : p.after w (n + 1) = t := by rw [after, hstep]
  rw [hnext] at h' ⊢
  cases hmove with
  | consume =>
    left
    simp [hmid, symbols]
  | expand hk =>
    right
    refine ⟨by simp [hmid], ⟨_, _, _, _, by rw [hstep], rfl⟩, _, lt_length_of_choice? hk, ?_⟩
    rw [hmid]
    rfl
  | accept => cases h'
  | reject => cases h'

/-- From some state on, a run that never ends only expands. -/
theorem exists_expands_from (h : ∀ n, (p.after w n).isFinished = false) :
    ∃ n, ∀ m, n ≤ m → p.Expands (p.after w m) ∧
      ∃ nt < p.grammar.rules.length, (p.after w m).top? = some (.nonTerminal nt) := by
  obtain ⟨n, _, hlow⟩ := exists_lowest (fun m => (p.after w m).remaining.length) 0
  have hle : ∀ m, n ≤ m → (p.after w m).remaining.length ≤ (p.after w n).remaining.length := by
    intro m hm
    induction m, hm using Nat.le_induction with
    | base => exact Nat.le_refl _
    | succ m _ ih =>
      rcases remaining_after_succ (h m) (h (m + 1)) with hlt | ⟨heq, _⟩ <;> omega
  refine ⟨n, fun m hm => ?_⟩
  rcases remaining_after_succ (h m) (h (m + 1)) with hlt | ⟨_, hexpands⟩
  · have hlow := hlow (m + 1) (by omega)
    have hle := hle m hm
    omega
  · exact hexpands

/-- Of the states below whose stack a run that never ends does not go any more, two have the same
non-terminal on top. -/
theorem exists_recurs (h : ∀ n, (p.after w n).isFinished = false) : ∃ i j, p.Recurs w i j := by
  obtain ⟨n, hn⟩ := exists_expands_from h
  let height := fun m => (p.after w m).stack.length
  have hinfinite : {i | n ≤ i ∧ ∀ m, i ≤ m → height i ≤ height m}.Infinite := by
    refine Set.infinite_of_forall_exists_gt fun a => ?_
    obtain ⟨i, hi, hlow⟩ := exists_lowest height (max n (a + 1))
    exact ⟨i, ⟨(le_max_left _ _).trans hi, hlow⟩, (le_max_right _ _).trans hi⟩
  have htops : Set.MapsTo (fun m => (p.after w m).top?)
      {i | n ≤ i ∧ ∀ m, i ≤ m → height i ≤ height m}
      ((fun nt => some (Symbol.nonTerminal nt)) '' Set.Iio p.grammar.rules.length) := by
    rintro i ⟨hi, _⟩
    obtain ⟨_, nt, hnt, htop⟩ := hn i hi
    exact ⟨nt, hnt, htop.symm⟩
  obtain ⟨i, ⟨hi, hlow⟩, j, _, hij, heq⟩ :=
    hinfinite.exists_lt_map_eq_of_mapsTo htops ((Set.finite_Iio _).image _)
  obtain ⟨_, nt, _, htop⟩ := hn i hi
  exact ⟨i, j, hij, ⟨nt, htop, heq.symm.trans htop⟩, fun k hk _ => (hn k (hi.trans hk)).1,
    fun k hk _ => hlow k hk⟩

/-! ## Rankings -/

/-- The symbols before the first terminal. -/
def beforeTerminal (xs : List Symbol) : List Symbol := xs.takeWhile fun x => !x.isTerminal

/-- In an alternative that the table gives under the lookahead `x`, the non-terminals before the
first terminal have a lower rank than the one that is expanded. -/
def RankedBy (p : Parser) (x : Symbol) (rank : Nat → Nat) : Prop :=
  ∀ nt k q, p.table.lookup nt x = some k → p.grammar.production? nt k = some q →
    ∀ b, .nonTerminal b ∈ beforeTerminal q.rhs → rank b < rank nt

theorem mem_beforeTerminal_cons {y z : Symbol} {xs : List Symbol} :
    y ∈ beforeTerminal (z :: xs) ↔ z.isTerminal = false ∧ (y = z ∨ y ∈ beforeTerminal xs) := by
  unfold beforeTerminal
  rw [List.takeWhile_cons]
  cases z.isTerminal <;> simp

theorem mem_beforeTerminal_append {y : Symbol} {xs ys : List Symbol}
    (h : y ∈ beforeTerminal (xs ++ ys)) : y ∈ beforeTerminal xs ∨ y ∈ beforeTerminal ys := by
  induction xs with
  | nil => exact Or.inr h
  | cons z xs ih =>
    rw [List.cons_append, mem_beforeTerminal_cons] at h
    rw [mem_beforeTerminal_cons]
    rcases h with ⟨hz, rfl | h⟩
    · exact Or.inl ⟨hz, Or.inl rfl⟩
    · exact (ih h).imp (fun h => ⟨hz, Or.inr h⟩) id

/-- What is not stacked does not stand between a non-terminal and the front either. -/
theorem mem_beforeTerminal_rhs {q : Production} {y : Symbol} (h : y ∈ beforeTerminal q.visible) :
    y ∈ beforeTerminal q.rhs := by
  unfold Production.visible at h
  generalize q.rhs = xs at h
  induction xs with
  | nil => exact h
  | cons z xs ih =>
    rw [mem_beforeTerminal_cons]
    cases z with
    | empty => exact ⟨rfl, Or.inr (ih h)⟩
    | terminal | nonTerminal | endMark =>
      obtain ⟨hz, h⟩ := mem_beforeTerminal_cons.mp h
      exact ⟨hz, h.imp id ih⟩

/-- Every expansion brings only non-terminals of lower rank to the front. -/
theorem Unfolds.rank_lt {rank : Nat → Nat} (hr : p.RankedBy x rank) {nt n : Nat}
    {form : List Symbol} (h : p.Unfolds x [.nonTerminal nt] n form) (hn : 0 < n) :
    ∀ b, .nonTerminal b ∈ beforeTerminal form → rank b < rank nt := by
  induction h with
  | refl => omega
  | @step m k n rest h hk ih =>
    have hbefore : rank m ≤ rank nt ∧
        ∀ b, .nonTerminal b ∈ beforeTerminal rest → rank b < rank nt := by
      rcases Nat.eq_zero_or_pos n with rfl | hpos
      · cases h
        exact ⟨Nat.le_refl _, fun b hb => by cases hb⟩
      · have hlower := ih hpos
        refine ⟨(hlower m ?_).le, fun b hb => hlower b ?_⟩
        · exact mem_beforeTerminal_cons.mpr ⟨rfl, Or.inl rfl⟩
        · exact mem_beforeTerminal_cons.mpr ⟨rfl, Or.inr hb⟩
    intro b hb
    obtain ⟨q, hq, hexp⟩ := exists_of_choice? hk
    rw [hexp] at hb
    rcases mem_beforeTerminal_append hb with hb | hb
    · exact (hr m k q (choice?_eq_some_iff.mp hk).1 hq b (mem_beforeTerminal_rhs hb)).trans_le hbefore.1
    · exact hbefore.2 b hb

theorem Recurs.not_rankedBy {i j : Nat} (h : p.Recurs w i j) :
    ∃ v, ∀ rank, ¬ p.RankedBy (ahead v) rank := by
  obtain ⟨u, v, nt, above, below, _, hunfolds⟩ := h.exists_unfolds
  refine ⟨v, fun rank hr => ?_⟩
  have hlower := hunfolds.rank_lt hr (Nat.sub_pos_of_lt h.lt) nt
    (mem_beforeTerminal_cons.mpr ⟨rfl, Or.inl rfl⟩)
  exact absurd hlower (Nat.lt_irrefl _)

/-- A run never comes to a verdict exactly if it recurs: it comes twice to the same non-terminal on
top by expansions alone, and does not go below the first of the two places in between. So it ends on
every sentence if under each lookahead the non-terminals have ranks that go down to the front of
every alternative of the table. -/
theorem a_run_never_ends_exactly_if_it_recurs (p : Parser) :
    (∀ w, ((∀ n, (p.after w n).isFinished = false) ↔ ∃ i j, p.Recurs w i j) ∧
      (p.run w = none ↔ ∀ n, (p.after w n).isFinished = false)) ∧
    ((∀ v, ∃ rank, p.RankedBy (ahead v) rank) → ∀ w, ∃ r, p.run w = some r) := by
  refine ⟨fun w => ⟨⟨exists_recurs, ?_⟩, run_eq_none_iff⟩, ?_⟩
  · rintro ⟨i, j, h⟩
    exact h.isFinished_eq_false
  · intro hranked w
    by_contra hnone
    rw [← Option.isSome_iff_exists, Option.not_isSome_iff_eq_none] at hnone
    obtain ⟨i, j, h⟩ := exists_recurs (run_eq_none_iff.mp hnone)
    obtain ⟨v, hv⟩ := h.not_rankedBy
    obtain ⟨rank, hr⟩ := hranked v
    exact hv rank hr

/-- In the built-in table only `C` begins with another non-terminal, which is `D`. With the rules
`S → D S` and `D → ε` the run on the empty sentence comes back to `S` after two steps. -/
theorem the_built_in_table_is_ranked_and_an_erased_front_recurs :
    (∀ v, ∃ rank, (ofConfiguration BuiltIn.loaded).RankedBy (ahead v) rank) ∧
    (∃ r, (ofConfiguration BuiltIn.loaded).run "aacdcc" = some r) ∧
    ∃ p : Parser, p.grammar.rules = [[⟨0, [.nonTerminal 1, .nonTerminal 0]⟩], [⟨1, [.empty]⟩]] ∧
      p.Recurs "" 0 2 ∧ p.run "" = none := by
  have hranked : ∀ v, ∃ rank, (ofConfiguration BuiltIn.loaded).RankedBy (ahead v) rank := by
    have hentries : ∀ e ∈ BuiltIn.parsingTable.entries,
        ∀ q ∈ BuiltIn.grammar.production? e.1.1 e.2, ∀ y ∈ beforeTerminal q.rhs,
          y = .empty ∨ (y = .nonTerminal 4 ∧ e.1.1 = 3) := by decide
    refine fun v => ⟨fun nt => if nt = 3 then 1 else 0, ?_⟩
    intro nt k q hlookup hq b hb
    rcases hentries _ (Keyed.mem_of_get? hlookup) q hq _ hb with hb | ⟨hb, hnt⟩
    · cases hb
    · cases hb
      simp only at hnt
      simp [hnt]
  refine ⟨hranked, (a_run_never_ends_exactly_if_it_recurs _).2 hranked _, ?_⟩
  let p : Parser :=
    { grammar := ⟨"", 0, ["S", "D"],
        [[⟨0, [.nonTerminal 1, .nonTerminal 0]⟩], [⟨1, [.empty]⟩]]⟩
      table := ⟨[((0, .endMark), 0), ((1, .endMark), 0)]⟩ }
  have hrecurs : p.Recurs "" 0 2 := by
    refine ⟨by decide, ⟨0, rfl, rfl⟩, ?_, ?_⟩
    · intro k _ hk
      interval_cases k
      · exact ⟨_, 0, .endMark, 0, rfl, rfl⟩
      · exact ⟨_, 1, .endMark, 0, rfl, rfl⟩
    · intro k _ hk
      interval_cases k <;> decide
  obtain ⟨hiff, hnone⟩ := (a_run_never_ends_exactly_if_it_recurs p).1 ""
  exact ⟨p, rfl, hrecurs, hnone.mpr (hiff.mpr ⟨0, 2, hrecurs⟩)⟩

end TopDown.Parser
