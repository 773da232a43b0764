-- A run does not look past the next symbol. While the cursor has not left a text that two sentences
-- begin with, their runs take the same steps: what stands behind that text is carried along unread.
-- So a verdict that is come to within the text is the verdict on every sentence that begins with it.
import Mathlib
import TopDown.Proofs.Certificates

namespace TopDown

theorem tokens_append (u x : String) : tokens (u ++ x) = symbols u.toList ++ tokens x := by
  simp [tokens, symbols, String.toList_append]

/-- The state with another input. -/
def State.withInput (s : State) (input : List Symbol) : State := { s with input }

namespace Parser

variable {p : Parser} {s next : State} {r : Record}

/-! ## One step -/

section

variable {u v z : List Symbol}

/-- What is ahead while the cursor is in the first part of the input. -/
theorem remaining_of_lt (hs : s.input = u ++ v) (h : s.cursor < u.length) :
    s.remaining = u.drop s.cursor ++ v := by
  rw [State.remaining, hs, List.drop_append_of_le_length h.le]

/-- Then the next symbol is of the first part. -/
theorem lookahead_of_lt (hs : s.input = u ++ v) (h : s.cursor < u.length) :
    s.lookahead = u[s.cursor] := by
  rw [State.lookahead, remaining_of_lt hs h, List.drop_eq_getElem_cons h, List.cons_append,
    List.headD_cons]

/-- Of the input an action depends on the next symbol alone. -/
theorem action_withInput {input : List Symbol}
    (h : (s.withInput input).lookahead = s.lookahead) :
    p.action (s.withInput input) = p.action s := by
  unfold action
  rw [h]
  rfl

/-- What an action does to the rest of a state does not depend on the input. -/
theorem perform_withInput (input : List Symbol) (a : Action) :
    p.perform (s.withInput input) a = (p.perform s a).withInput input := by
  cases a <;> rfl

/-- A step within the first part of the input is taken whatever the second part is. -/
theorem step_withInput (hs : s.input = u ++ v) (h : s.cursor < u.length)
    (hstep : p.step s = (next, some r)) :
    r.remaining = u.drop s.cursor ++ v ∧
      p.step (s.withInput (u ++ z)) = (next.withInput (u ++ z),
        some { r with remaining := u.drop s.cursor ++ z }) := by
  have hfin : s.isFinished = false := isFinished_of_step hstep
  have hfin' : (s.withInput (u ++ z)).isFinished = false := hfin
  have hinput : (s.withInput (u ++ z)).input = u ++ z := rfl
  have hcursor : (s.withInput (u ++ z)).cursor < u.length := h
  have haction : p.action (s.withInput (u ++ z)) = p.action s := by
    apply action_withInput
    rw [lookahead_of_lt hs h, lookahead_of_lt hinput hcursor]
    rfl
  obtain ⟨rfl, rfl⟩ := (step_eq_iff hfin).mp hstep
  refine ⟨remaining_of_lt hs h, (step_eq_iff hfin').mpr ⟨?_, ?_⟩⟩
  · rw [haction, remaining_of_lt hinput hcursor]
    rfl
  · rw [haction, perform_withInput]
    rfl

end

/-! ## Many steps -/

/-- The records of one step, on `u` followed by `x` and on `u` followed by `y`. There is some of `u`
ahead in both, and they differ in what comes behind it alone. -/
def Parallel (u x y : String) (r r' : Record) : Prop :=
  ∃ rest : List Char, rest ≠ [] ∧ rest <:+ u.toList ∧ r.remaining = symbols rest ++ tokens x ∧
    r' = { r with remaining := symbols rest ++ tokens y }

/-- Before each of its first `n` steps the run on `w` has consumed less than `m` characters. -/
def StaysWithin (p : Parser) (w : String) (m n : Nat) : Prop :=
  ∀ rs s, p.Reaches (p.start w) rs s → rs.length < n → s.status = .running → s.cursor < m

variable {u x y : String} {n : Nat}

theorem exists_parallel_step (hs : s.input = tokens (u ++ x)) (h : s.cursor < u.length)
    (hstep : p.step s = (next, some r)) :
    ∃ r', Parallel u x y r r' ∧ p.step (s.withInput (tokens (u ++ y))) =
      (next.withInput (tokens (u ++ y)), some r') := by
  have hlt : s.cursor < (symbols u.toList).length := by
    rwa [symbols, List.length_map, String.length_toList]
  have hdrop : (symbols u.toList).drop s.cursor = symbols (u.toList.drop s.cursor) :=
    List.map_drop.symm
  rw [tokens_append] at hs
  obtain ⟨hremaining, hstep'⟩ := step_withInput (z := tokens y) hs hlt hstep
  rw [hdrop] at hremaining hstep'
  rw [tokens_append]
  refine ⟨_, ⟨_, ?_, List.drop_suffix _ _, hremaining, rfl⟩, hstep'⟩
  rw [ne_eq, List.drop_eq_nil_iff, String.length_toList]
  omega

/-- The run on the one sentence goes through the states of the run on the other. -/
theorem exists_parallel_run (h : p.StaysWithin (u ++ x) u.length n) {rs : List Record} {t : State}
    (hreach : p.Reaches (p.start (u ++ x)) rs t) (hn : rs.length ≤ n) :
    ∃ rs', p.Reaches (p.start (u ++ y)) rs' (t.withInput (tokens (u ++ y))) ∧
      List.Forall₂ (Parallel u x y) rs rs' := by
  induction hreach with
  | refl => exact ⟨[], .refl _, .nil⟩
  | @step t next rs r hreach hstep ih =>
    rw [List.length_append, List.length_singleton] at hn
    obtain ⟨rs', hreach', hparallel⟩ := ih (by omega)
    have hcursor := h rs t hreach (by omega) (isFinished_eq_false_iff.mp (isFinished_of_step hstep))
    obtain ⟨r', hr, hstep'⟩ := exists_parallel_step (y := y) hreach.regular.input_eq hcursor hstep
    exact ⟨rs' ++ [r'], hreach'.step hstep', List.rel_append hparallel (.cons hr .nil)⟩

/-- If the run on `u` followed by `x` stays within `u` before each of its first `n` steps, then the
run on `u` followed by `y` takes the same steps. -/
theorem a_run_does_not_look_past_the_next_symbol (p : Parser) (u x y : String) (n : Nat)
    (h : p.StaysWithin (u ++ x) u.length n) :
    (∀ rs t, p.Reaches (p.start (u ++ x)) rs t → rs.length ≤ n →
      ∃ rs', p.Reaches (p.start (u ++ y)) rs' (t.withInput (tokens (u ++ y))) ∧
        List.Forall₂ (Parallel u x y) rs rs') ∧
    ∀ r, p.run (u ++ x) = some r → r.steps ≤ n →
      ∃ r', p.run (u ++ y) = some r' ∧ r'.status = r.status ∧ r'.steps = r.steps ∧
        List.Forall₂ (Parallel u x y) r.trace r'.trace := by
  have hruns : ∀ rs t, p.Reaches (p.start (u ++ x)) rs t → rs.length ≤ n →
      ∃ rs', p.Reaches (p.start (u ++ y)) rs' (t.withInput (tokens (u ++ y))) ∧
        List.Forall₂ (Parallel u x y) rs rs' :=
    fun rs t hreach hn => exists_parallel_run h hreach hn
  refine ⟨hruns, fun r hrun hn => ?_⟩
  obtain ⟨t, hreach, hdone, hstatus, hsteps⟩ := reaches_of_runWithin hrun
  have hlen : r.trace.length ≤ n := by
    rw [← hreach.regular.steps_eq, hsteps]
    exact hn
  obtain ⟨rs', hreach', hparallel⟩ := hruns r.trace t hreach hlen
  have hfin : (t.withInput (tokens (u ++ y))).isFinished = true := hreach.isDone_eq ▸ hdone
  obtain ⟨r', hrun'⟩ := hreach'.exists_run hfin
  obtain ⟨htrace, hstatus', hsteps'⟩ := (hreach'.of_run hrun').1 hfin
  exact ⟨r', hrun', hstatus'.symm.trans hstatus, hsteps'.symm.trans hsteps, htrace ▸ hparallel⟩

theorem staysWithin_of_after {w : String} {m : Nat} (h : ∀ k < n, (p.after w k).cursor < m) :
    p.StaysWithin w m n := by
  intro rs s hreach hn _
  rw [← after_of_reaches hreach]
  exact h rs.length hn

/-- The seventh step rejects `cdb` at its `b`, so every sentence that begins with `cdb` is rejected
with its seventh step. -/
theorem cdb_decides_cdbca :
    (ofConfiguration BuiltIn.loaded).StaysWithin ("cdb" ++ "") "cdb".length 7 ∧
      ∃ r, (ofConfiguration BuiltIn.loaded).run ("cdb" ++ "") = some r ∧ r.steps = 7 ∧
        r.status = .rejected .unexpectedTop ∧
        ∃ r', (ofConfiguration BuiltIn.loaded).run ("cdb" ++ "ca") = some r' ∧
          r'.status = .rejected .unexpectedTop ∧ r'.steps = 7 ∧
          List.Forall₂ (Parallel "cdb" "" "ca") r.trace r'.trace := by
  have hwithin : (ofConfiguration BuiltIn.loaded).StaysWithin ("cdb" ++ "") "cdb".length 7 := by
    apply staysWithin_of_after
    have hcursors : (List.range 7).all (fun k =>
        ((ofConfiguration BuiltIn.loaded).after ("cdb" ++ "") k).cursor < "cdb".length) = true := by
      cbv
    simpa using hcursors
  have hcdb : ((ofConfiguration BuiltIn.loaded).run ("cdb" ++ "")).any (fun r =>
      r.steps = 7 ∧ r.status = .rejected .unexpectedTop) = true := by cbv
  obtain ⟨r, hr, h⟩ := (Option.any_eq_true _ _).mp hcdb
  obtain ⟨hsteps, hstatus⟩ := of_decide_eq_true h
  obtain ⟨_, hrun⟩ := a_run_does_not_look_past_the_next_symbol _ "cdb" "" "ca" 7 hwithin
  obtain ⟨r', hr', hstatus', hsteps', hparallel⟩ := hrun r hr (by omega)
  exact ⟨hwithin, r, hr, hsteps, hstatus, r', hr', hstatus'.trans hstatus, hsteps'.trans hsteps,
    hparallel⟩

end Parser

end TopDown
