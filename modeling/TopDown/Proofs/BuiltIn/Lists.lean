-- The FIRST and FOLLOW lists and the table that come with the built-in grammar are given by hand.
-- They are the ones that its derivations tell: four rounds of the rules find every member, and none
-- is missing.
import TopDown.Proofs.BuiltIn.Loaded
import TopDown.Proofs.FirstFollow

namespace TopDown.BuiltIn

/-! ## No dead ends -/

/-- The shortest strings of `D`, `C`, `B` and `A` are the empty one, `c`, `cc` and `ccc`. -/
theorem completes_nonTerminal {nt : Nat} (h : nt < 5) : grammar.Completes [.nonTerminal nt] := by
  have hD : grammar.Yields [.nonTerminal 4] [(4, 1)] [] := .nonTerminal rfl .nil
  have hC : grammar.Yields [.nonTerminal 3] [(3, 0), (4, 1)] ['c'] :=
    .nonTerminal rfl (hD.append (.terminal .nil))
  have hB : grammar.Yields [.nonTerminal 2] [(2, 1), (3, 0), (4, 1), (4, 1)] ['c', 'c'] :=
    .nonTerminal rfl (.terminal (hC.append hD))
  have hA : grammar.Yields [.nonTerminal 1] [(1, 1), (4, 1), (2, 1), (3, 0), (4, 1), (4, 1)]
      ['c', 'c', 'c'] :=
    .nonTerminal rfl (.terminal (hD.append hB))
  have hS : grammar.Yields [.nonTerminal 0] [(0, 2), (3, 0), (4, 1)] ['c', 'c', 'c'] :=
    .nonTerminal rfl (.terminal (hC.append (.terminal .nil)))
  rw [Grammar.completes_iff_yields]
  obtain rfl | rfl | rfl | rfl | rfl : nt = 0 ∨ nt = 1 ∨ nt = 2 ∨ nt = 3 ∨ nt = 4 := by omega
  · exact ⟨_, _, hS⟩
  · exact ⟨_, _, hA⟩
  · exact ⟨_, _, hB⟩
  · exact ⟨_, _, hC⟩
  · exact ⟨_, _, hD⟩

theorem productive : grammar.Productive where
  start := completes_nonTerminal (by decide)
  alternative nt k p hp := by
    have hmem : ∀ nt < 5, ∀ p ∈ grammar.productions nt, ∀ x ∈ p.visible,
        x.isTerminal = true ∨ x ∈ (List.range 5).map Symbol.nonTerminal := by decide
    refine Grammar.completes_of_forall fun x hx => ?_
    have hlt : nt < 5 := Grammar.lt_length_of_production? hp
    rcases hmem nt hlt p (Grammar.mem_productions_of_production? hp) x hx with ht | hn
    · cases x with
      | terminal c => exact Grammar.completes_terminal c
      | nonTerminal | empty | endMark => cases ht
    · obtain ⟨m, hm, rfl⟩ := List.mem_map.mp hn
      exact completes_nonTerminal (List.mem_range.mp hm)

/-! ## The lists and the table -/

theorem sets_justified : sets.Justified grammar := by
  have hfound : sets.Found grammar 4 := ⟨by decide, by decide⟩
  exact hfound.justified productive

theorem sets_backs : sets.Backs grammar parsingTable := by decide

/-- The lists of the built-in grammar are its FIRST and FOLLOW, and its table gives an alternative
exactly under the lookaheads that are predicted for it. No derivation comes to a dead end, so it is
all one whether what begins with a character is a string or any form. -/
theorem the_built_in_lists_and_table_are_exact :
    ∃ c, configuration = .ok c ∧
      (∀ nt x, x ∈ c.sets.first nt ↔ c.grammar.IsFirst [.nonTerminal nt] x) ∧
      (∀ nt x, x ∈ c.sets.follow nt ↔ c.grammar.IsFollow nt x) ∧
      (∀ nt x k, c.table.lookup nt x = some k ↔
        ∃ p, c.grammar.production? nt k = some p ∧ c.grammar.IsPredicted nt p x) ∧
      ∀ nt < c.grammar.names.length, ∀ form, c.grammar.Derives [.nonTerminal nt] form →
        c.grammar.Completes form := by
  refine ⟨loaded, configuration_eq, ?_, ?_, ?_, ?_⟩
  · exact SymbolSets.mem_first_iff sets_closed sets_justified
  · exact SymbolSets.mem_follow_iff sets_closed sets_justified productive
  · exact SymbolSets.lookup_eq_some_iff sets_closed sets_justified productive sets_covered
      sets_backs
  · intro nt hnt form h
    exact productive.completes_of_derives h (completes_nonTerminal hnt)

/-- The form `c D c c`, which two steps make of `S`. -/
theorem the_form_cDcc_of_S_can_be_completed :
    ∃ c, configuration = .ok c ∧ 0 < c.grammar.names.length ∧
      c.grammar.Derives [.nonTerminal 0]
        [.terminal 'c', .nonTerminal 4, .terminal 'c', .terminal 'c'] ∧
      c.grammar.Completes [.terminal 'c', .nonTerminal 4, .terminal 'c', .terminal 'c'] := by
  obtain ⟨c, hc, _, _, _, hcompletes⟩ := the_built_in_lists_and_table_are_exact
  have hloaded : c = loaded := by
    rw [configuration_eq] at hc
    exact (Except.ok.inj hc).symm
  subst hloaded
  have hS : grammar.Derives [.nonTerminal 0] [.terminal 'c', .nonTerminal 3, .terminal 'c'] :=
    @Grammar.derives_of_production? grammar 0 2 ⟨0, [.terminal 'c', .nonTerminal 3, .terminal 'c']⟩
      rfl
  have hC : grammar.Derives [.nonTerminal 3] [.nonTerminal 4, .terminal 'c'] :=
    @Grammar.derives_of_production? grammar 3 0 ⟨3, [.nonTerminal 4, .terminal 'c']⟩ rfl
  have hd := hS.trans (hC.around [.terminal 'c'] [.terminal 'c'])
  exact ⟨loaded, hc, by decide, hd, hcompletes 0 (by decide) _ hd⟩

end TopDown.BuiltIn
