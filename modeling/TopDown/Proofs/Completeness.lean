-- A predictive table leads a run along any derivation of its sentence: at each non-terminal it
-- gives the alternative that the derivation applies. So every sentence of the language is accepted,
-- and it has one leftmost derivation, which is the one on record.
import TopDown.Proofs.BuiltIn.Loaded
import TopDown.Proofs.StepLimit

namespace TopDown.Parser

variable {p : Parser}

theorem choice?_of_lookup {nt k : Nat} {x : Symbol} {q : Production}
    (ht : p.table.lookup nt x = some k) (hq : p.grammar.production? nt k = some q) :
    p.choice? nt x = some k ∧ p.expansion nt k = q.visible := by
  simp [choice?, expansion, ht, hq]

/-- A run from here accepts and applies `cs`, with one step for each of them, for each character
ahead and for the end. -/
def AcceptsBy (p : Parser) (u v : List Char) (form : List Symbol) (cs : List Choice) : Prop :=
  ∀ n, ∃ fuel t rs, p.runFrom fuel (.midway u v form n) = some (t, rs) ∧
    t.status = .accepted ∧ t.steps = n + v.length + cs.length + 1 ∧ applied rs = cs

theorem acceptsBy_nil {u : List Char} : p.AcceptsBy u [] [] [] := by
  intro n
  have hmark : OnEndMark [] := rfl
  refine ⟨1, acceptedState u [] (n + 1), [⟨n + 1, [.endMark], [.endMark], .consume .endMark⟩],
    ?_, rfl, rfl, rfl⟩
  rw [runFrom_succ isDone_midway (step_accept hmark), runFrom_done rfl]
  rfl

theorem AcceptsBy.consume {u v : List Char} {c : Char} {form : List Symbol} {cs : List Choice}
    (h : p.AcceptsBy (u ++ [c]) v form cs) : p.AcceptsBy u (c :: v) (.terminal c :: form) cs := by
  intro n
  obtain ⟨fuel, t, rs, hrun, hstatus, hsteps, hcs⟩ := h (n + 1)
  refine ⟨fuel + 1, t, ⟨n + 1, .terminal c :: form ++ [.endMark], symbols (c :: v) ++ [.endMark],
    .consume (.terminal c)⟩ :: rs, ?_, hstatus, ?_, ?_⟩
  · rw [runFrom_succ isDone_midway step_consume, hrun]
    rfl
  · rw [hsteps, List.length_cons]
    omega
  · rw [applied_cons, hcs]
    rfl

theorem AcceptsBy.expand {u v : List Char} {nt k : Nat} {form : List Symbol} {cs : List Choice}
    (hk : p.choice? nt (ahead v) = some k) (h : p.AcceptsBy u v (p.expansion nt k ++ form) cs) :
    p.AcceptsBy u v (.nonTerminal nt :: form) ((nt, k) :: cs) := by
  intro n
  obtain ⟨fuel, t, rs, hrun, hstatus, hsteps, hcs⟩ := h (n + 1)
  refine ⟨fuel + 1, t, ⟨n + 1, .nonTerminal nt :: form ++ [.endMark], symbols v ++ [.endMark],
    .expand nt (ahead v) k⟩ :: rs, ?_, hstatus, ?_, ?_⟩
  · rw [runFrom_succ isDone_midway (step_expand hk), hrun]
    rfl
  · rw [hsteps, List.length_cons]
    omega
  · rw [applied_cons, hcs]
    rfl

/-- The run follows the derivation. The induction is on the derivation of what is ahead; what has
been derived so far is what the table has to be asked about. -/
theorem acceptsBy_of_yields (ht : Predictive p.grammar p.table) {u v : List Char}
    {form : List Symbol} {cs ds : List Choice} (hd : p.Derived ds u form)
    (hy : p.grammar.Yields form cs v) : p.AcceptsBy u v form cs := by
  induction hy generalizing u ds with
  | nil => exact acceptsBy_nil
  | terminal _ ih => exact (ih hd.consume).consume
  | @nonTerminal nt k q form cs v hq hy ih =>
    have hlookup := ht ds u nt form k q v hd hq hy.derives
    obtain ⟨hk, hexp⟩ := choice?_of_lookup hlookup hq
    have hrest := hd.expand hk
    refine .expand hk ?_
    rw [hexp] at hrest ⊢
    exact ih hrest

/-- A run under a predictive table, by any leftmost derivation of its sentence. -/
theorem run_of_leftmost (ht : Predictive p.grammar p.table) {w : String} {cs : List Choice}
    (h : p.grammar.Leftmost [p.grammar.startSymbol] cs (symbols w.toList)) :
    ∃ r, p.run w = some r ∧ r.status = .accepted ∧ applied r.trace = cs ∧
      r.steps = w.length + cs.length + 1 := by
  have hstart : p.Derived [] [] [p.grammar.startSymbol] := .refl _
  obtain ⟨fuel, t, rs, hrun, hstatus, hsteps, hcs⟩ :=
    acceptsBy_of_yields ht hstart (Grammar.leftmost_symbols_iff.mp h) 0
  rw [← start_eq_midway] at hrun
  refine ⟨_, run_eq_of_runFrom hrun, hstatus, hcs, ?_⟩
  simp only [hsteps, String.length_toList]
  omega

/-- Under a predictive table every sentence of the language is accepted, and what the run applies
is its only leftmost derivation. A right-hand side with the end mark takes no part in the
derivation of a sentence, so the grammar may be any. -/
theorem predictive_tables_accept_by_the_only_derivation (p : Parser)
    (ht : Predictive p.grammar p.table) (w : String) (hw : p.grammar.Generates w.toList) :
    ∃ r, p.run w = some r ∧ r.status = .accepted ∧
      ∀ cs, p.grammar.Leftmost [p.grammar.startSymbol] cs (symbols w.toList) ↔
        cs = applied r.trace := by
  obtain ⟨ds, hds⟩ := Grammar.derives_symbols_iff.mp hw
  obtain ⟨r, hrun, hstatus, happ, _⟩ := run_of_leftmost ht hds
  refine ⟨r, hrun, hstatus, ?_⟩
  intro cs
  refine ⟨?_, ?_⟩
  · intro h
    obtain ⟨r', hrun', _, happ', _⟩ := run_of_leftmost ht h
    rw [hrun] at hrun'
    cases hrun'
    exact happ'.symm
  · intro h
    rw [h, happ]
    exact hds

/-- The string `cdcc` under the built-in table. -/
theorem cdcc_is_accepted_by_its_only_derivation :
    Predictive BuiltIn.grammar BuiltIn.parsingTable ∧ BuiltIn.grammar.Generates "cdcc".toList ∧
      ∃ r, (ofConfiguration BuiltIn.loaded).run "cdcc" = some r ∧ r.status = .accepted ∧
        ∀ cs, BuiltIn.grammar.Leftmost [BuiltIn.grammar.startSymbol] cs
          (symbols "cdcc".toList) ↔ cs = applied r.trace := by
  have hw : BuiltIn.grammar.Yields [BuiltIn.grammar.startSymbol] [(0, 2), (3, 0), (4, 0), (4, 1)]
      ['c', 'd', 'c', 'c'] :=
    .nonTerminal rfl (.terminal (.nonTerminal rfl (.nonTerminal rfl (.terminal
      (.nonTerminal rfl (.terminal (.terminal .nil)))))))
  exact ⟨BuiltIn.predictive, hw.derives,
    predictive_tables_accept_by_the_only_derivation (ofConfiguration BuiltIn.loaded)
      BuiltIn.predictive "cdcc" hw.derives⟩

end TopDown.Parser
