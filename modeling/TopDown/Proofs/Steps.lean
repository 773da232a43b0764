-- Runs step by step. A state in the middle of a run is told by what is consumed, what is ahead
-- and what stands on the end mark. `Move` says all that one step can do to such a state, and
-- every law of runs is an induction over the steps that uses nothing else.
import TopDown.Parser.Run
import TopDown.Proofs.Lookahead

namespace TopDown

/-- `u` is consumed and `v` is ahead; the stack is `form` on the end mark. -/
def State.midway (u v : List Char) (form : List Symbol) (steps : Nat) : State where
  stack := form ++ [.endMark]
  input := symbols (u ++ v) ++ [.endMark]
  cursor := u.length
  steps := steps
  status := .running

namespace State

variable (u v : List Char) (form : List Symbol) (n : Nat)

@[simp] theorem isFinished_midway : (midway u v form n).isFinished = false := rfl

@[simp] theorem remaining_midway : (midway u v form n).remaining = symbols v ++ [.endMark] := by
  simp [remaining, midway, symbols]

@[simp] theorem lookahead_midway : (midway u v form n).lookahead = ahead v := by
  rw [lookahead, remaining_midway]
  cases v <;> rfl

end State

/-- The alternative that an action applies. -/
def Action.applied? : Action → Option Choice
  | expand nt _ alternative => some (nt, alternative)
  | consume _ | reject _ => none

/-- The alternatives that the recorded expansions apply, in order. -/
def applied (records : List Record) : List Choice := records.filterMap fun r => r.action.applied?

@[simp] theorem applied_nil : applied [] = [] := rfl

theorem applied_append (rs ss : List Record) : applied (rs ++ ss) = applied rs ++ applied ss :=
  List.filterMap_append

theorem applied_cons (r : Record) (rs : List Record) :
    applied (r :: rs) = r.action.applied?.toList ++ applied rs := by
  unfold applied
  rw [List.filterMap_cons]
  cases r.action.applied? <;> rfl

namespace Parser

variable {p : Parser} {u v : List Char} {form : List Symbol} {n : Nat}

theorem start_eq_midway (p : Parser) (w : String) :
    p.start w = .midway [] w.toList [p.grammar.startSymbol] 0 := rfl

theorem step_finished {s : State} (h : s.isFinished = true) : p.step s = (s, none) := by
  simp [step, h]

/-- A state that takes a step has no verdict. -/
theorem isFinished_of_step {s next : State} {r : Record} (h : p.step s = (next, some r)) :
    s.isFinished = false := by
  rw [Bool.eq_false_iff]
  intro hfin
  rw [step_finished hfin] at h
  cases h

/-! ## The action in the middle of a run -/

theorem action_terminal {c : Char} :
    p.action (.midway u v (.terminal c :: form) n) =
      if .terminal c = ahead v then .consume (.terminal c) else .reject .unexpectedTop := by
  rw [← State.lookahead_midway u v (.terminal c :: form) n]
  rfl

theorem action_nonTerminal {nt : Nat} :
    p.action (.midway u v (.nonTerminal nt :: form) n) =
      match p.choice? nt (ahead v) with
      | some k => .expand nt (ahead v) k
      | none => .reject .unexpectedInput := by
  rw [← State.lookahead_midway u v (.nonTerminal nt :: form) n]
  rfl

theorem action_empty :
    p.action (.midway u v (.empty :: form) n) = .reject .unexpectedTop := rfl

/-- The topmost symbol is an end mark: the one at the bottom, or one of a right-hand side. -/
def OnEndMark (form : List Symbol) : Prop := (form ++ [Symbol.endMark]).head? = some .endMark

theorem action_endMark (h : OnEndMark form) :
    p.action (.midway u v form n) =
      if .endMark = ahead v then .consume .endMark else .reject .unexpectedTop := by
  rw [← State.lookahead_midway u v form n]
  unfold action
  have htop : (State.midway u v form n).top? = some .endMark := h
  rw [htop]

/-! ## One step -/

theorem step_midway {a : Action} (h : p.action (.midway u v form n) = a) :
    p.step (.midway u v form n) =
      ({ p.perform (.midway u v form n) a with steps := n + 1 },
        some ⟨n + 1, form ++ [.endMark], symbols v ++ [.endMark], a⟩) := by
  unfold step
  rw [State.isFinished_midway, State.remaining_midway, h]
  rfl

theorem step_consume {c : Char} :
    p.step (.midway u (c :: v) (.terminal c :: form) n) =
      (.midway (u ++ [c]) v form (n + 1),
        some ⟨n + 1, .terminal c :: form ++ [.endMark], symbols (c :: v) ++ [.endMark],
          .consume (.terminal c)⟩) := by
  rw [step_midway (action_terminal.trans (if_pos rfl))]
  simp [perform, State.midway]

theorem step_expand {nt k : Nat} (h : p.choice? nt (ahead v) = some k) :
    p.step (.midway u v (.nonTerminal nt :: form) n) =
      (.midway u v (p.expansion nt k ++ form) (n + 1),
        some ⟨n + 1, .nonTerminal nt :: form ++ [.endMark], symbols v ++ [.endMark],
          .expand nt (ahead v) k⟩) := by
  have ha : p.action (.midway u v (.nonTerminal nt :: form) n) = .expand nt (ahead v) k := by
    rw [action_nonTerminal, h]
  rw [step_midway ha]
  simp [perform, State.midway]

/-- The end of a run that accepts. -/
def acceptedState (u : List Char) (form : List Symbol) (n : Nat) : State :=
  { State.midway u [] form n with
    stack := (form ++ [Symbol.endMark]).tail, cursor := u.length + 1, status := .accepted }

theorem step_accept (h : OnEndMark form) :
    p.step (.midway u [] form n) =
      (acceptedState u form (n + 1),
        some ⟨n + 1, form ++ [.endMark], [.endMark], .consume .endMark⟩) := by
  rw [step_midway ((action_endMark h).trans (if_pos rfl))]
  simp [perform, acceptedState, State.midway]

/-- The end of a run that rejects. -/
def rejectedState (u v : List Char) (form : List Symbol) (n : Nat) (reason : RejectReason) :
    State :=
  { State.midway u v form n with status := .rejected reason }

theorem step_reject {reason : RejectReason}
    (h : p.action (.midway u v form n) = .reject reason) :
    p.step (.midway u v form n) =
      (rejectedState u v form (n + 1) reason,
        some ⟨n + 1, form ++ [.endMark], symbols v ++ [.endMark], .reject reason⟩) := by
  rw [step_midway h]
  rfl

/-- All that one step can do in the middle of a run, after `n` steps, by what is ahead and what
stands on the end mark: its action, and the state that it leads to. -/
inductive Move (p : Parser) (u : List Char) (n : Nat) :
    List Char → List Symbol → Action → State → Prop
  | consume {c : Char} {v : List Char} {form : List Symbol} :
      Move p u n (c :: v) (.terminal c :: form) (.consume (.terminal c))
        (.midway (u ++ [c]) v form (n + 1))
  | expand {v : List Char} {nt k : Nat} {form : List Symbol} :
      p.choice? nt (ahead v) = some k →
      Move p u n v (.nonTerminal nt :: form) (.expand nt (ahead v) k)
        (.midway u v (p.expansion nt k ++ form) (n + 1))
  | accept {form : List Symbol} :
      OnEndMark form →
      Move p u n [] form (.consume .endMark) (acceptedState u form (n + 1))
  | reject {v : List Char} {form : List Symbol} {reason : RejectReason} :
      p.action (.midway u v form n) = .reject reason →
      Move p u n v form (.reject reason) (rejectedState u v form (n + 1) reason)

/-- The step on a state is a move, and there is a record of it. -/
def Moves (p : Parser) (u v : List Char) (form : List Symbol) (n : Nat) : Prop :=
  ∃ a t, p.Move u n v form a t ∧ p.step (.midway u v form n) =
    (t, some ⟨n + 1, form ++ [.endMark], symbols v ++ [.endMark], a⟩)

theorem moves_of_reject {reason : RejectReason}
    (h : p.action (.midway u v form n) = .reject reason) : p.Moves u v form n :=
  ⟨_, _, .reject h, step_reject h⟩

theorem moves_of_endMark (h : OnEndMark form) : p.Moves u v form n := by
  cases v with
  | nil => exact ⟨_, _, .accept h, step_accept h⟩
  | cons c v => exact moves_of_reject ((action_endMark h).trans (if_neg (by simp [ahead])))

/-- Every step in the middle of a run is one of the moves. -/
theorem moves (p : Parser) (u v : List Char) (form : List Symbol) (n : Nat) :
    p.Moves u v form n := by
  rcases form with _ | ⟨x, form⟩
  · exact moves_of_endMark rfl
  cases x with
  | empty => exact moves_of_reject action_empty
  | endMark => exact moves_of_endMark rfl
  | terminal c =>
    by_cases hc : .terminal c = ahead v
    · rcases v with _ | ⟨d, v⟩
      · simp [ahead] at hc
      · cases hc
        exact ⟨_, _, .consume, step_consume⟩
    · exact moves_of_reject (action_terminal.trans (if_neg hc))
  | nonTerminal nt =>
    rcases hk : p.choice? nt (ahead v) with _ | k
    · have hreject : p.action (.midway u v (.nonTerminal nt :: form) n) =
          .reject .unexpectedInput := by
        rw [action_nonTerminal, hk]
      exact moves_of_reject hreject
    · exact ⟨_, _, .expand hk, step_expand hk⟩

/-! ## Many steps -/

/-- Steps from one state to another, each with its record. -/
inductive Reaches (p : Parser) : State → List Record → State → Prop
  | refl (s : State) : Reaches p s [] s
  | step {s t next : State} {rs : List Record} {r : Record} :
      Reaches p s rs t → p.step t = (next, some r) → Reaches p s (rs ++ [r]) next

/-- One more step at the start. -/
theorem Reaches.head {s t next : State} {rs : List Record} {r : Record}
    (hs : p.step s = (next, some r)) (h : p.Reaches next rs t) : p.Reaches s (r :: rs) t := by
  induction h with
  | refl => exact .step (.refl s) hs
  | step _ ht ih => exact .step ih ht

theorem reaches_nil_iff {s t : State} : p.Reaches s [] t ↔ t = s := by
  constructor
  · intro h
    generalize hrs : ([] : List Record) = rs at h
    cases h with
    | refl => rfl
    | step => simp at hrs
  · rintro rfl
    exact .refl t

theorem reaches_cons_iff {s t : State} {a : Record} {rs : List Record} :
    p.Reaches s (a :: rs) t ↔ ∃ u, p.step s = (u, some a) ∧ p.Reaches u rs t := by
  constructor
  · intro h
    generalize hqs : a :: rs = qs at h
    induction h generalizing rs with
    | refl => cases hqs
    | @step _ next qs r hreach hstep ih =>
      cases qs with
      | nil =>
        cases hqs
        rw [reaches_nil_iff.mp hreach] at hstep
        exact ⟨next, hstep, .refl next⟩
      | cons b qs =>
        cases hqs
        obtain ⟨u, hfirst, hrest⟩ := ih rfl
        exact ⟨u, hfirst, hrest.step hstep⟩
  · rintro ⟨u, hstep, hreach⟩
    exact hreach.head hstep

/-- Each record is of a step that the run came to. -/
theorem Reaches.exists_step {s t : State} {rs : List Record} (h : p.Reaches s rs t) {r : Record}
    (hr : r ∈ rs) : ∃ qs before next, p.Reaches s qs before ∧ p.step before = (next, some r) := by
  induction h with
  | refl => cases hr
  | step hreach hstep ih =>
    rcases List.mem_append.mp hr with hr | hr
    · exact ih hr
    · rw [List.mem_singleton.mp hr]
      exact ⟨_, _, _, hreach, hstep⟩

theorem isFinished_eq_false_iff {s : State} : s.isFinished = false ↔ s.status = .running := by
  unfold State.isFinished
  cases s.status <;> simp [Status.isFinished]

theorem isFinished_of_isDone_eq_false {s : State} (h : isDone s = false) :
    s.isFinished = false := by
  simp only [isDone, Bool.or_eq_false_iff] at h
  exact h.1

theorem exists_record {s : State} (h : s.isFinished = false) :
    ∃ next r, p.step s = (next, some r) := by
  unfold step
  rw [h]
  exact ⟨_, _, rfl⟩

/-- One turn of the loop. -/
theorem runFrom_succ {fuel : Nat} {s next : State} {r : Record} (hd : isDone s = false)
    (hs : p.step s = (next, some r)) :
    p.runFrom (fuel + 1) s =
      (p.runFrom fuel next).map fun (last, records) => (last, r :: records) := by
  rw [runFrom, hd, hs]
  rfl

theorem runFrom_done {fuel : Nat} {s : State} (hd : isDone s = true) :
    p.runFrom fuel s = some (s, []) := by
  unfold runFrom
  rw [if_pos hd]

/-- A run takes steps until it is done. -/
theorem reaches_of_runFrom {fuel : Nat} {s t : State} {rs : List Record}
    (h : p.runFrom fuel s = some (t, rs)) : p.Reaches s rs t ∧ isDone t = true := by
  induction fuel generalizing s rs with
  | zero =>
    cases hd : isDone s with
    | false => simp [runFrom, hd] at h
    | true =>
      rw [runFrom_done hd] at h
      cases h
      exact ⟨.refl _, hd⟩
  | succ fuel ih =>
    cases hd : isDone s with
    | true =>
      rw [runFrom_done hd] at h
      cases h
      exact ⟨.refl _, hd⟩
    | false =>
      obtain ⟨next, r, hs⟩ := exists_record (p := p) (isFinished_of_isDone_eq_false hd)
      rw [runFrom_succ hd hs, Option.map_eq_some_iff] at h
      obtain ⟨⟨last, records⟩, hrun, heq⟩ := h
      cases heq
      obtain ⟨hreach, hlast⟩ := ih hrun
      exact ⟨hreach.head hs, hlast⟩

/-- The report of a run is of a state that its steps reach. -/
theorem reaches_of_runWithin {fuel : Nat} {w : String} {r : Report}
    (h : p.runWithin fuel w = some r) :
    ∃ t, p.Reaches (p.start w) r.trace t ∧ isDone t = true ∧
      t.status = r.status ∧ t.steps = r.steps := by
  rw [runWithin, Option.map_eq_some_iff] at h
  obtain ⟨⟨t, rs⟩, hrun, rfl⟩ := h
  obtain ⟨hreach, hd⟩ := reaches_of_runFrom hrun
  exact ⟨t, hreach, hd, rfl, rfl⟩

theorem isDone_midway : isDone (.midway u v form n) = false := by
  simp [isDone, State.midway, State.isFinished, Status.isFinished]

end Parser

end TopDown
