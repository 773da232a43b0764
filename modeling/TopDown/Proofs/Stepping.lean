-- Stepping by hand and running to the end come to the same. The end mark at the bottom of the stack
-- goes only with the step that accepts, so a run never meets an empty stack before its verdict: the
-- loop that looks only for a verdict and the one that also looks at the stack take the same steps.
import Mathlib
import TopDown.Proofs.BuiltIn.Loaded
import TopDown.Proofs.Soundness
import TopDown.Proofs.StepLimit

namespace TopDown.Parser

variable {p : Parser}

/-- Step until there is a verdict, `fuel` times at most: the last state and the records. -/
def stepFrom (p : Parser) : Nat → State → Option (State × List Record)
  | fuel, s =>
    if s.isFinished then some (s, [])
    else
      match fuel with
      | 0 => none
      | fuel + 1 =>
        let (next, record) := p.step s
        (p.stepFrom fuel next).map fun (last, records) => (last, record.toList ++ records)

/-! ## States of a run -/

/-- The last step on record consumed the end mark. -/
def EndConsumed (rs : List Record) : Prop :=
  ∃ qs r, rs = qs ++ [r] ∧ r.action = .consume .endMark

/-- What a state is like that a run on `w` comes to by the steps on record. -/
structure Regular (p : Parser) (w : String) (rs : List Record) (t : State) : Prop where
  input_eq : t.input = (p.start w).input
  steps_eq : t.steps = rs.length
  empty_not_mem : .empty ∉ t.stack
  running : t.status = .running →
    t.stack ≠ [] ∧ t.stack.getLast? = some .endMark ∧ t.cursor < t.input.length
  accepted_iff : t.status = .accepted ↔ EndConsumed rs
  cursor_eq : t.status = .accepted → t.cursor = t.input.length

/-- A run accepts with the step that consumes the end mark, and with no other. -/
theorem Move.accepted_iff {u v : List Char} {form : List Symbol} {n : Nat} {a : Action} {t : State}
    (h : p.Move u n v form a t) : t.status = .accepted ↔ a = .consume .endMark := by
  cases h with
  | consume | expand | reject => simp [State.midway, rejectedState]
  | accept => simp [acceptedState]

theorem Reaches.accepted_iff {w : String} {rs : List Record} {t : State}
    (h : p.Reaches (p.start w) rs t) : t.status = .accepted ↔ EndConsumed rs := by
  cases h with
  | refl =>
    constructor
    · intro ha
      cases ha
    · rintro ⟨qs, r, hr, _⟩
      simp at hr
  | @step s _ rs r hreach hstep =>
    obtain ⟨u, v, form, a, _, _, _, hmove, rfl⟩ := hreach.exists_move hstep
    rw [hmove.accepted_iff]
    constructor
    · intro ha
      exact ⟨rs, _, rfl, ha⟩
    · rintro ⟨qs, r', hr, ha⟩
      obtain ⟨_, hr⟩ := List.append_inj' hr rfl
      cases hr
      exact ha

theorem Derived.empty_not_mem {cs : List Choice} {u : List Char} {form : List Symbol}
    (h : p.Derived cs u form) : .empty ∉ form := by
  have hnot : .empty ∉ symbols u ++ form :=
    h.not_mem (fun _ _ q _ => Grammar.empty_not_mem_visible q) (by simp [Grammar.startSymbol])
  exact fun hmem => hnot (List.mem_append_right _ hmem)

theorem Reaches.regular {w : String} {rs : List Record} {t : State}
    (h : p.Reaches (p.start w) rs t) : p.Regular w rs t := by
  have haccepted := h.accepted_iff
  cases stands_of_reaches h with
  | running hw hd _ =>
    refine ⟨?_, rfl, ?_, ?_, haccepted, ?_⟩
    · simp [State.midway, start, tokens, symbols, hw]
    · simpa [State.midway] using hd.empty_not_mem
    · intro _
      simp [State.midway, symbols]
    · intro ha
      cases ha
  | rejected hw hd _ =>
    refine ⟨?_, rfl, ?_, ?_, haccepted, ?_⟩
    · simp [rejectedState, State.midway, start, tokens, symbols, hw]
    · simpa [rejectedState, State.midway] using hd.empty_not_mem
    · intro hr
      cases hr
    · intro ha
      cases ha
  | accepted _ hd _ =>
    refine ⟨?_, rfl, ?_, ?_, haccepted, ?_⟩
    · simp [acceptedState, State.midway, start, tokens, symbols]
    · intro hmem
      have hmem := List.mem_of_mem_tail hmem
      exact hd.empty_not_mem (by simpa using hmem)
    · intro hr
      cases hr
    · intro _
      simp [acceptedState, State.midway, symbols]

/-! ## The two loops -/

theorem stepFrom_finished {fuel : Nat} {s : State} (h : s.isFinished = true) :
    p.stepFrom fuel s = some (s, []) := by
  unfold stepFrom
  rw [if_pos h]

theorem stepFrom_succ {fuel : Nat} {s next : State} {r : Record} (h : s.isFinished = false)
    (hs : p.step s = (next, some r)) :
    p.stepFrom (fuel + 1) s =
      (p.stepFrom fuel next).map fun (last, records) => (last, r :: records) := by
  rw [stepFrom, h, hs]
  rfl

/-- The stack of a run is never empty before the verdict. -/
theorem Reaches.isDone_eq {w : String} {rs : List Record} {t : State}
    (h : p.Reaches (p.start w) rs t) : isDone t = t.isFinished := by
  cases hfin : t.isFinished with
  | true => rw [isDone, hfin, Bool.true_or]
  | false =>
    have hrunning : t.status = .running := by
      cases hs : t.status with
      | running => rfl
      | accepted | rejected => simp [State.isFinished, Status.isFinished, hs] at hfin
    have hne := (h.regular.running hrunning).1
    simp [isDone, hfin, hne]

/-- From any state of a run the two loops do the same. The induction is on the steps left. -/
theorem stepFrom_eq_runFrom {w : String} {rs : List Record} {s : State}
    (h : p.Reaches (p.start w) rs s) (fuel : Nat) : p.stepFrom fuel s = p.runFrom fuel s := by
  induction fuel generalizing rs s with
  | zero => rw [stepFrom, runFrom, h.isDone_eq]
  | succ fuel ih =>
    cases hfin : s.isFinished with
    | true => rw [stepFrom_finished hfin, runFrom_done (h.isDone_eq.trans hfin)]
    | false =>
      obtain ⟨next, r, hs⟩ := exists_record (p := p) hfin
      rw [stepFrom_succ hfin hs, runFrom_succ (h.isDone_eq.trans hfin) hs, ih (h.step hs)]

theorem run_eq_some_iff {w : String} {r : Report} :
    p.run w = some r ↔ ∃ fuel t, p.runFrom fuel (p.start w) = some (t, r.trace) ∧
      t.status = r.status ∧ t.steps = r.steps := by
  constructor
  · intro h
    rw [run, runWithin, Option.map_eq_some_iff] at h
    obtain ⟨⟨t, rs⟩, hrun, rfl⟩ := h
    exact ⟨_, t, hrun, rfl, rfl⟩
  · rintro ⟨fuel, t, hrun, hstatus, hsteps⟩
    rw [run_eq_of_runFrom hrun, hstatus, hsteps]

/-- A run that ends has a verdict. -/
theorem isFinished_of_run {w : String} {r : Report} (h : p.run w = some r) :
    r.status.isFinished = true := by
  obtain ⟨t, hreach, hdone, hstatus, _⟩ := reaches_of_runWithin h
  rw [hreach.isDone_eq] at hdone
  exact hstatus ▸ hdone

/-- Where no right-hand side holds the end mark, the stack has the one at its bottom until the
sentence is accepted, and then it is empty. -/
theorem Reaches.endMark_at_bottom (hg : p.grammar.NoEndMark) {w : String} {rs : List Record}
    {t : State} (h : p.Reaches (p.start w) rs t) :
    (t.status ≠ .accepted → t.stack.count .endMark = 1 ∧ t.stack.getLast? = some .endMark) ∧
      (t.stack = [] ↔ t.status = .accepted) := by
  have hmid : ∀ {cs : List Choice} {u : List Char} {form : List Symbol}, p.Derived cs u form →
      (form ++ [Symbol.endMark]).count .endMark = 1 := by
    intro cs u form hd
    rw [List.count_append, List.count_eq_zero.mpr (hd.endMark_not_mem hg)]
    rfl
  cases stands_of_reaches h with
  | running _ hd _ => simpa [State.midway] using hmid hd
  | rejected _ hd _ => simpa [rejectedState, State.midway] using hmid hd
  | accepted hmark hd _ => simp [acceptedState, hd.eq_nil hg hmark]

/-- Every state of a run keeps the input and counts the steps, has no empty marker on its stack, and
before the verdict has the end mark at the bottom of the stack and something ahead; it is accepted
by consuming the end mark at the end of the input. So stepping until there is a verdict gives the
same states and records as running, and no run that ends is left without a verdict. Where the rules
hold no end mark, the one at the bottom is the only one on the stack. -/
theorem stepping_and_running_agree (p : Parser) (w : String) :
    (∀ rs t, p.Reaches (p.start w) rs t → p.Regular w rs t) ∧
    (∀ fuel, p.stepFrom fuel (p.start w) = p.runFrom fuel (p.start w)) ∧
    (∀ r, p.run w = some r ↔ ∃ fuel t, p.stepFrom fuel (p.start w) = some (t, r.trace) ∧
      t.status = r.status ∧ t.steps = r.steps) ∧
    (∀ r, p.run w = some r → r.status ≠ .running) ∧
    (p.grammar.NoEndMark → ∀ rs t, p.Reaches (p.start w) rs t →
      (t.status ≠ .accepted → t.stack.count .endMark = 1 ∧ t.stack.getLast? = some .endMark) ∧
      (t.stack = [] ↔ t.status = .accepted)) := by
  have hloops : ∀ fuel, p.stepFrom fuel (p.start w) = p.runFrom fuel (p.start w) :=
    stepFrom_eq_runFrom (.refl _)
  refine ⟨fun rs t h => h.regular, hloops, ?_, ?_, fun hg rs t h => h.endMark_at_bottom hg⟩
  · intro r
    simp only [hloops]
    exact run_eq_some_iff
  · intro r h hrunning
    have hfin := isFinished_of_run h
    rw [hrunning] at hfin
    cases hfin

/-- The run on `ccc` under the built-in table ends, and the stack is empty when it does. -/
theorem stepping_through_ccc_empties_the_stack : BuiltIn.grammar.NoEndMark ∧
    ∃ r t, (ofConfiguration BuiltIn.loaded).run "ccc" = some r ∧ r.status ≠ .running ∧
      (ofConfiguration BuiltIn.loaded).Reaches (start (ofConfiguration BuiltIn.loaded) "ccc")
        r.trace t ∧
      Regular (ofConfiguration BuiltIn.loaded) "ccc" r.trace t ∧ t.status = .accepted ∧
      t.stack = [] := by
  obtain ⟨hregular, _, _, hverdict, hmark⟩ :=
    stepping_and_running_agree (ofConfiguration BuiltIn.loaded) "ccc"
  have hccc : (ofConfiguration BuiltIn.loaded).recognizes "ccc" = true := by cbv
  obtain ⟨r, hr, ha⟩ := (Option.any_eq_true _ _).mp hccc
  obtain ⟨t, hreach, _, hstatus, _⟩ := reaches_of_runWithin hr
  have hta : t.status = .accepted := hstatus.trans (of_decide_eq_true ha)
  exact ⟨BuiltIn.noEndMark, r, t, hr, hverdict r hr, hreach, hregular _ t hreach, hta,
    (hmark BuiltIn.noEndMark _ t hreach).2.mpr hta⟩

end TopDown.Parser
