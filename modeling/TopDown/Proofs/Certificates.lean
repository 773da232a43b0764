-- A trace certifies itself. Each record shows the stack and the input before its step and what the
-- step does, so what is there after the step can be told from the record alone, and has to be what the
-- next record shows. Records that begin as a run does, go on so, and bring a verdict with the last of
-- them and no other are the trace of the run.
import Mathlib
import TopDown.Proofs.Completeness
import TopDown.Proofs.Walking

namespace TopDown

/-- The verdict that an action brings. After any other action the run goes on. -/
def Action.verdict? : Action → Option Status
  | consume x => if x = .endMark then some .accepted else none
  | expand _ _ _ => none
  | reject reason => some (.rejected reason)

namespace Record

/-- What a record leaves of the stack and of the input. A symbol that is consumed was on top of the
stack and ahead, and goes from both; a non-terminal that is expanded was on top, the table gives the
alternative for what was ahead, and the alternative without its empty markers takes its place. -/
inductive Leaves (p : Parser) : Record → List Symbol → List Symbol → Prop
  | consume {n : Nat} {x : Symbol} {stack rest : List Symbol} :
      Leaves p ⟨n, x :: stack, x :: rest, .consume x⟩ stack rest
  | expand {n nt k : Nat} {x : Symbol} {q : Production} {stack rest : List Symbol} :
      p.table.lookup nt x = some k → p.grammar.production? nt k = some q →
      Leaves p ⟨n, .nonTerminal nt :: stack, x :: rest, .expand nt x k⟩ (q.visible ++ stack)
        (x :: rest)

/-- A rejection with its reason. Either the table gives no alternative for the non-terminal on top of
the stack, or what is on top is no non-terminal and is not ahead. -/
inductive Rejects (p : Parser) : Record → Prop
  | unexpectedInput {n nt : Nat} {x : Symbol} {stack rest : List Symbol} :
      p.choice? nt x = none →
      Rejects p ⟨n, .nonTerminal nt :: stack, x :: rest, .reject .unexpectedInput⟩
  | unexpectedTop {n : Nat} {x y : Symbol} {stack rest : List Symbol} :
      x.isNonTerminal = false → x ≠ y →
      Rejects p ⟨n, x :: stack, y :: rest, .reject .unexpectedTop⟩

/-- The record shows on what ground its step is taken. -/
def Justified (p : Parser) (r : Record) : Prop := r.Rejects p ∨ ∃ stack rest, r.Leaves p stack rest

end Record

namespace Parser

variable {p : Parser} {w : String} {s t : State} {a : Record}

/-- A certificate of a run to `status` that has taken `n` steps before, and has come to this stack and
this input: the records are numbered, the first one shows what the run has come to, each one leaves
what the next one shows, and a verdict comes with the last of them alone. -/
structure Certificate (p : Parser) (n : Nat) (stack remaining : List Symbol) (rs : List Record)
    (status : Status) : Prop where
  numbered : rs.map Record.step = List.range' (n + 1) rs.length
  first : ∀ r ∈ rs.head?, r.stack = stack ∧ r.remaining = remaining
  next : rs.IsChain fun a b => a.Leaves p b.stack b.remaining
  last : ∃ before final, rs = before ++ [final] ∧ (∀ r ∈ before, r.action.verdict? = none) ∧
    final.action.verdict? = some status ∧ final.Justified p

/-! ## One record -/

theorem certificate_singleton_iff {n : Nat} {stack remaining : List Symbol} {status : Status} :
    p.Certificate n stack remaining [a] status ↔
      a = ⟨n + 1, stack, remaining, a.action⟩ ∧ a.action.verdict? = some status ∧
        a.Justified p := by
  constructor
  · rintro ⟨hnumbered, hfirst, _, before, final, hrs, _, hverdict, hjustified⟩
    obtain ⟨rfl, hfinal⟩ := List.append_inj' (List.nil_append [a] |>.trans hrs) rfl
    cases hfinal
    obtain ⟨hstack, hremaining⟩ := hfirst a rfl
    have hstep : a.step = n + 1 := by simpa using hnumbered
    refine ⟨?_, hverdict, hjustified⟩
    rw [← hstep, ← hstack, ← hremaining]
  · rintro ⟨ha, hverdict, hjustified⟩
    refine ⟨?_, ?_, List.isChain_singleton a, [], a, rfl, by simp, hverdict, hjustified⟩
    · rw [ha]
      rfl
    · rintro r ⟨⟩
      rw [ha]
      exact ⟨rfl, rfl⟩

theorem certificate_cons_cons_iff {n : Nat} {stack remaining : List Symbol} {b : Record}
    {rs : List Record} {status : Status} :
    p.Certificate n stack remaining (a :: b :: rs) status ↔
      a = ⟨n + 1, stack, remaining, a.action⟩ ∧ a.action.verdict? = none ∧
        a.Leaves p b.stack b.remaining ∧
        p.Certificate (n + 1) b.stack b.remaining (b :: rs) status := by
  constructor
  · rintro ⟨hnumbered, hfirst, hnext, before, final, hrs, hbefore, hverdict, hjustified⟩
    obtain ⟨hstack, hremaining⟩ := hfirst a rfl
    obtain ⟨hleaves, hnext⟩ := List.isChain_cons_cons.mp hnext
    rw [List.length_cons, List.range'_succ, List.map_cons] at hnumbered
    obtain ⟨hstep, hnumbered⟩ := List.cons.inj hnumbered
    rcases before with _ | ⟨c, before⟩
    · simp at hrs
    · rw [List.cons_append] at hrs
      obtain ⟨rfl, htail⟩ := List.cons.inj hrs
      refine ⟨?_, hbefore a List.mem_cons_self, hleaves, hnumbered, ?_, hnext, before, final, htail,
        fun r hr => hbefore r (List.mem_cons_of_mem a hr), hverdict, hjustified⟩
      · rw [← hstep, ← hstack, ← hremaining]
      · rintro r ⟨⟩
        exact ⟨rfl, rfl⟩
  · rintro ⟨ha, hnone, hleaves, hnumbered, _, hnext, before, final, hrs, hbefore, hverdict,
      hjustified⟩
    refine ⟨?_, ?_, List.isChain_cons_cons.mpr ⟨hleaves, hnext⟩, a :: before, final, ?_, ?_,
      hverdict, hjustified⟩
    · rw [List.map_cons, hnumbered, List.length_cons (a := a), List.range'_succ, ha]
    · rintro r ⟨⟩
      rw [ha]
      exact ⟨rfl, rfl⟩
    · rw [hrs, List.cons_append]
    · intro r hr
      rcases List.mem_cons.mp hr with rfl | hr
      · exact hnone
      · exact hbefore r hr

/-! ## One step -/

theorem step_eq_iff (hs : s.isFinished = false) :
    p.step s = (t, some a) ↔ a = ⟨s.steps + 1, s.stack, s.remaining, p.action s⟩ ∧
      t = { p.perform s (p.action s) with steps := s.steps + 1 } := by
  unfold step
  rw [hs, if_neg Bool.false_ne_true, Prod.mk.injEq, Option.some.injEq, and_comm, eq_comm (a := a),
    eq_comm (a := t)]

/-- The top of the stack and what is ahead show what the action is. -/
theorem justified_iff {x y : Symbol} {stack rest : List Symbol} (hstack : s.stack = x :: stack)
    (hremaining : s.remaining = y :: rest) (hx : x ≠ .empty) (hy : y.isNonTerminal = false)
    {n : Nat} {act : Action} :
    Record.Justified p ⟨n, x :: stack, y :: rest, act⟩ ↔ act = p.action s := by
  have htop : s.top? = some x := by rw [State.top?, hstack, List.head?_cons]
  have hahead : s.lookahead = y := by rw [State.lookahead, hremaining, List.headD_cons]
  simp only [action, htop, hahead]
  constructor
  · rintro (hrejects | ⟨stack', rest', hleaves⟩)
    · cases hrejects with
      | unexpectedInput hnone => simp only [hnone]
      | unexpectedTop hnt hne => cases x <;> simp_all [Symbol.isNonTerminal]
    · cases hleaves with
      | consume => cases x <;> simp_all [Symbol.isNonTerminal]
      | expand hlookup hq => simp only [choice?_eq_some_iff.mpr ⟨hlookup, _, hq⟩]
  · rintro rfl
    cases x with
    | empty => exact absurd rfl hx
    | nonTerminal nt =>
      cases hk : p.choice? nt y with
      | none => exact .inl (by simpa only [hk] using .unexpectedInput hk)
      | some k =>
        obtain ⟨hlookup, q, hq⟩ := choice?_eq_some_iff.mp hk
        exact .inr ⟨_, _, by simpa only [hk] using .expand hlookup hq⟩
    | terminal | endMark =>
      simp only
      split
      · next heq =>
        subst heq
        exact .inr ⟨_, _, .consume⟩
      · next hne => exact .inl (.unexpectedTop rfl hne)

/-- A step ends the run exactly if its action brings a verdict, which is then that of the run. -/
theorem verdict?_eq_some_iff (hs : s.status = .running) (h : p.step s = (t, some a))
    {status : Status} :
    a.action.verdict? = some status ↔ t.isFinished = true ∧ t.status = status := by
  obtain ⟨rfl, rfl⟩ := (step_eq_iff (isFinished_eq_false_iff.mpr hs)).mp h
  cases p.action s with
  | consume x =>
    by_cases hx : x = .endMark
    · simp [perform, Action.verdict?, State.isFinished, Status.isFinished, hx]
    · simp [perform, Action.verdict?, State.isFinished, Status.isFinished, hx, hs]
  | expand => simp [perform, Action.verdict?, State.isFinished, Status.isFinished, hs]
  | reject => simp [perform, Action.verdict?, State.isFinished, Status.isFinished]

theorem verdict?_eq_none_iff (hs : s.status = .running) (h : p.step s = (t, some a)) :
    a.action.verdict? = none ↔ t.status = .running := by
  rw [← isFinished_eq_false_iff, Option.eq_none_iff_forall_ne_some]
  simp only [ne_eq, verdict?_eq_some_iff hs h, not_and, Bool.eq_false_iff]
  exact ⟨fun hnone ht => hnone t.status ht rfl, fun ht _ hfin => absurd hfin ht⟩

/-- What a record leaves is what its action leaves. -/
theorem perform_leaves {stack rest : List Symbol} (h : a.Leaves p stack rest)
    (hstack : s.stack = a.stack) (hremaining : s.remaining = a.remaining) :
    (p.perform s a.action).stack = stack ∧ (p.perform s a.action).remaining = rest := by
  cases h with
  | consume =>
    rw [State.remaining] at hremaining
    constructor
    · simp only [perform, hstack, List.tail_cons]
    · simp only [perform, State.remaining, ← List.tail_drop, hremaining, List.tail_cons]
  | expand hlookup hq =>
    obtain ⟨_, hexpansion⟩ := choice?_of_lookup hlookup hq
    constructor
    · simp only [perform, hstack, hexpansion, List.tail_cons]
    · exact hremaining

/-! ## Many steps -/

/-- Before the verdict something is on the stack and something is ahead. -/
theorem Reaches.exists_top {qs : List Record} (hs : p.Reaches (p.start w) qs s)
    (hrunning : s.status = .running) :
    ∃ x y stack rest, s.stack = x :: stack ∧ s.remaining = y :: rest ∧ x ≠ .empty ∧
      y.isNonTerminal = false := by
  obtain ⟨hstack, _, hcursor⟩ := hs.regular.running hrunning
  obtain ⟨x, stack, hx⟩ := List.exists_cons_of_ne_nil hstack
  obtain ⟨y, rest, hy⟩ := List.exists_cons_of_ne_nil (mt List.drop_eq_nil_iff.mp hcursor.not_ge)
  refine ⟨x, y, stack, rest, hx, hy, ?_, ?_⟩
  · rintro rfl
    exact hs.regular.empty_not_mem (hx ▸ List.mem_cons_self)
  · have hmem : y ∈ tokens w := by
      have hinput : s.input = tokens w := hs.regular.input_eq
      exact hinput ▸ List.mem_of_mem_drop (hy ▸ List.mem_cons_self)
    rcases List.mem_append.mp hmem with hmem | hmem
    · exact isNonTerminal_of_mem_symbols hmem
    · rw [List.mem_singleton.mp hmem]
      rfl

/-- The record of a step shows the state before it, and is justified; and no other record is. -/
theorem Reaches.exists_step_iff {qs : List Record} (hs : p.Reaches (p.start w) qs s)
    (hrunning : s.status = .running) :
    (∃ u, p.step s = (u, some a)) ↔
      a = ⟨s.steps + 1, s.stack, s.remaining, a.action⟩ ∧ a.Justified p := by
  obtain ⟨x, y, stack, rest, hstack, hremaining, hx, hy⟩ := hs.exists_top hrunning
  have hjustified : Record.Justified p ⟨s.steps + 1, x :: stack, y :: rest, a.action⟩ ↔
      a.action = p.action s := justified_iff hstack hremaining hx hy
  rw [← hstack, ← hremaining] at hjustified
  simp only [step_eq_iff (isFinished_eq_false_iff.mpr hrunning), exists_and_left, exists_eq,
    and_true]
  constructor
  · intro ha
    have hact : a.action = p.action s := by rw [ha]
    have hrecord : a = ⟨s.steps + 1, s.stack, s.remaining, a.action⟩ := by rw [hact, ← ha]
    exact ⟨hrecord, hrecord ▸ hjustified.mpr hact⟩
  · rintro ⟨ha, hj⟩
    rw [ha] at hj
    rw [← hjustified.mp hj, ← ha]

/-- Where the run goes on after a step, what its record leaves is what the next state has. -/
theorem leaves_iff (hs : s.status = .running) (h : p.step s = (t, some a))
    (ht : t.status = .running) (hj : a.Justified p) {stack rest : List Symbol} :
    a.Leaves p stack rest ↔ t.stack = stack ∧ t.remaining = rest := by
  have hperformed : ∀ {stack rest}, a.Leaves p stack rest →
      t.stack = stack ∧ t.remaining = rest := by
    intro stack rest hleaves
    obtain ⟨rfl, rfl⟩ := (step_eq_iff (isFinished_eq_false_iff.mpr hs)).mp h
    exact perform_leaves hleaves rfl rfl
  refine ⟨hperformed, ?_⟩
  rintro ⟨rfl, rfl⟩
  rcases hj with hrejects | ⟨stack, rest, hleaves⟩
  · have hverdict := (verdict?_eq_none_iff hs h).mpr ht
    cases hrejects <;> cases hverdict
  · obtain ⟨rfl, rfl⟩ := hperformed hleaves
    exact hleaves

/-- From a state in the middle of a run, records certify exactly what they lead to. The induction is
on the records; the last one leads to the verdict, and any other to a state in the middle again. -/
theorem certificate_iff_reaches {qs rs : List Record} {status : Status}
    (hs : p.Reaches (p.start w) qs s) (hrunning : s.status = .running) :
    p.Certificate s.steps s.stack s.remaining rs status ↔
      ∃ t, p.Reaches s rs t ∧ t.isFinished = true ∧ t.status = status := by
  induction rs generalizing qs s with
  | nil =>
    constructor
    · rintro ⟨_, _, _, before, final, hrs, _⟩
      simp at hrs
    · rintro ⟨t, hreach, ht, _⟩
      rw [reaches_nil_iff.mp hreach, isFinished_eq_false_iff.mpr hrunning] at ht
      cases ht
  | cons a rs ih =>
    cases rs with
    | nil =>
      simp only [certificate_singleton_iff, reaches_cons_iff, reaches_nil_iff]
      constructor
      · rintro ⟨ha, hverdict, hj⟩
        obtain ⟨u, hstep⟩ := (hs.exists_step_iff hrunning).mpr ⟨ha, hj⟩
        exact ⟨u, ⟨u, hstep, rfl⟩, (verdict?_eq_some_iff hrunning hstep).mp hverdict⟩
      · rintro ⟨t, ⟨u, hstep, rfl⟩, ht⟩
        obtain ⟨ha, hj⟩ := (hs.exists_step_iff hrunning).mp ⟨t, hstep⟩
        exact ⟨ha, (verdict?_eq_some_iff hrunning hstep).mpr ht, hj⟩
    | cons b rs =>
      rw [certificate_cons_cons_iff]
      constructor
      · rintro ⟨ha, hnone, hleaves, hcertificate⟩
        have hj : a.Justified p := .inr ⟨_, _, hleaves⟩
        obtain ⟨u, hstep⟩ := (hs.exists_step_iff hrunning).mpr ⟨ha, hj⟩
        have hu := (verdict?_eq_none_iff hrunning hstep).mp hnone
        obtain ⟨hstack, hremaining⟩ := (leaves_iff hrunning hstep hu hj).mp hleaves
        rw [← hstack, ← hremaining, ← (steps_of_step hstep).2] at hcertificate
        obtain ⟨t, hreach, ht⟩ := (ih (hs.step hstep) hu).mp hcertificate
        exact ⟨t, hreach.head hstep, ht⟩
      · rintro ⟨t, hreach, ht⟩
        obtain ⟨u, hstep, hreach⟩ := reaches_cons_iff.mp hreach
        obtain ⟨v, hnext, _⟩ := reaches_cons_iff.mp hreach
        obtain ⟨ha, hj⟩ := (hs.exists_step_iff hrunning).mp ⟨u, hstep⟩
        -- There is a step after this one, so this one has brought no verdict.
        have hu : u.status = .running := isFinished_eq_false_iff.mp (isFinished_of_step hnext)
        obtain ⟨hb, _⟩ := ((hs.step hstep).exists_step_iff hu).mp ⟨v, hnext⟩
        have hstack : u.stack = b.stack := by rw [hb]
        have hremaining : u.remaining = b.remaining := by rw [hb]
        refine ⟨ha, (verdict?_eq_none_iff hrunning hstep).mpr hu,
          (leaves_iff hrunning hstep hu hj).mpr ⟨hstack, hremaining⟩, ?_⟩
        rw [← hstack, ← hremaining, ← (steps_of_step hstep).2]
        exact (ih (hs.step hstep) hu).mpr ⟨t, hreach, ht⟩

/-- The records of a run that ends are numbered from one and as many as its steps. The first shows
the start symbol on the end mark and the whole sentence, and each following one shows the stack and
the input that the one before it leaves. The last, and no other, brings a verdict, which is that of
the run. Nothing else has to be looked at: a report like this is that of the run. -/
theorem a_trace_certifies_itself (p : Parser) (w : String) (r : Report) :
    p.run w = some r ↔ r.steps = r.trace.length ∧
      p.Certificate 0 [p.grammar.startSymbol, .endMark] (tokens w) r.trace r.status := by
  have hcertificate : p.Certificate 0 [p.grammar.startSymbol, .endMark] (tokens w) r.trace r.status ↔
      ∃ t, p.Reaches (p.start w) r.trace t ∧ t.isFinished = true ∧ t.status = r.status :=
    certificate_iff_reaches (.refl _) rfl
  rw [hcertificate]
  constructor
  · intro hrun
    obtain ⟨t, hreach, hdone, hstatus, hsteps⟩ := reaches_of_runWithin hrun
    rw [hreach.isDone_eq] at hdone
    exact ⟨hsteps ▸ hreach.regular.steps_eq, t, hreach, hdone, hstatus⟩
  · rintro ⟨hsteps, t, hreach, ht, hstatus⟩
    obtain ⟨r', hrun⟩ := hreach.exists_run ht
    obtain ⟨htrace, hstatus', hsteps'⟩ := (hreach.of_run hrun).1 ht
    obtain ⟨fuel, u, hfrom, hu, husteps⟩ := run_eq_some_iff.mp hrun
    refine run_eq_some_iff.mpr ⟨fuel, u, htrace ▸ hfrom, ?_, ?_⟩
    · rw [hu, ← hstatus', hstatus]
    · rw [husteps, ← hsteps', hsteps, hreach.regular.steps_eq]

end Parser

end TopDown
