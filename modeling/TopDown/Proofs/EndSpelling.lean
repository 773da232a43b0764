-- The spelling of the end mark in a right-hand side. There it is a character like any other, while as
-- a lookahead it is the end mark: so it is the one terminal for which a table can have no entry, and
-- sentences that begin with it are rejected, also those that the grammar generates.
import Mathlib
import TopDown.Proofs.Loadable
import TopDown.Proofs.Walking

namespace TopDown

/-! ## Spellings of terminals -/

theorem Symbol.ofSpelling_eq_terminal_iff {names : List String} {s : String} {ch : Char}
    (hs : s ∈ names ∨ s = emptySpelling ∨ s.length = 1) :
    Symbol.ofSpelling names s = .terminal ch ↔ s = ch.toString ∧ s ∉ names ∧ s ≠ emptySpelling := by
  unfold Symbol.ofSpelling
  by_cases hname : s ∈ names
  · simp [hname]
  by_cases hempty : s = emptySpelling
  · rw [if_neg hname, if_pos hempty]
    simp [hempty]
  obtain ⟨c, hc⟩ := length_eq_one_iff.mp ((hs.resolve_left hname).resolve_left hempty)
  rw [if_neg hname, if_neg hempty, Symbol.ofFirst, hc, List.headD_cons]
  simp only [Symbol.terminal.injEq, hname, hempty, not_false_eq_true, and_true, ne_eq]
  rw [← String.toList_inj, hc, Char.toString_eq_singleton, String.toList_singleton]
  simp

/-- A character is a lookahead unless it spells the end mark. -/
theorem exists_readLookahead_iff {ch : Char} :
    (∃ s, readLookahead s = .ok (.terminal ch)) ↔ ch ≠ '$' := by
  constructor
  · rintro ⟨s, hs⟩
    exact isLookahead_of_readLookahead hs
  · intro hch
    exact ⟨ch.toString, readLookahead_spell (Grammar.new "") (x := .terminal ch) hch⟩

namespace Document

/-- The text stands for a symbol in some right-hand side. -/
def Spells (d : Document) (s : String) : Prop :=
  ∃ rule ∈ d.rules, ∃ production ∈ rule.2.items, s ∈ production.texts

theorem mem_allProductions_grammar {d : Document} {p : Production} :
    p ∈ d.grammar.allProductions ↔ ∃ rule ∈ d.rules, p ∈ alternativesOf d.names rule := by
  unfold Grammar.allProductions grammar
  rw [List.mem_flatten]
  simp

/-- What stands for a symbol in some right-hand side passes for one. -/
theorem Loadable.spelling {d : Document} (hl : d.Loadable) {s : String} (hs : d.Spells s) :
    s ∈ d.names ∨ s = emptySpelling ∨ s.length = 1 := by
  obtain ⟨rule, hrule, production, hproduction, hs⟩ := hs
  obtain ⟨alternatives, hv, _, hall⟩ := hl.rules rule hrule
  rw [hv, items_array] at hproduction
  obtain ⟨spellings, hspellings, rfl⟩ := List.mem_map.mp hproduction
  rw [texts_strings] at hs
  exact hall spellings hspellings s hs

theorem exists_terminal_iff {d : Document} {ch : Char} :
    (∃ p ∈ d.grammar.allProductions, .terminal ch ∈ p.rhs) ↔
      ∃ s, d.Spells s ∧ Symbol.ofSpelling d.names s = .terminal ch := by
  have hsides : ∀ spellings : List String,
      .terminal ch ∈ (if spellings.isEmpty then [.empty]
        else spellings.map (Symbol.ofSpelling d.names)) ↔
      ∃ s ∈ spellings, Symbol.ofSpelling d.names s = .terminal ch := by
    intro spellings
    cases spellings <;> simp [eq_comm]
  simp only [mem_allProductions_grammar, alternativesOf, List.map_map, List.mem_map,
    Function.comp_apply]
  constructor
  · rintro ⟨_, ⟨rule, hrule, v, hv, rfl⟩, hmem⟩
    obtain ⟨s, hs, heq⟩ := (hsides _).mp hmem
    exact ⟨s, ⟨rule, hrule, v, hv, hs⟩, heq⟩
  · rintro ⟨s, ⟨rule, hrule, v, hv, hs⟩, heq⟩
    exact ⟨_, ⟨rule, hrule, v, hv, rfl⟩, (hsides _).mpr ⟨s, hs, heq⟩⟩

/-- The terminals are the characters in the right-hand sides that are neither rule keys nor the empty
marker. -/
theorem Loadable.mem_terminals_iff {d : Document} (hl : d.Loadable) {ch : Char} :
    .terminal ch ∈ d.grammar.terminals ↔
      d.Spells ch.toString ∧ ch.toString ∉ d.names ∧ ch.toString ≠ emptySpelling := by
  have hmem : .terminal ch ∈ d.grammar.terminals ↔
      ∃ p ∈ d.grammar.allProductions, .terminal ch ∈ p.rhs := by
    simp [Grammar.mem_terminals_iff, Symbol.isTerminal]
  rw [hmem, exists_terminal_iff]
  constructor
  · rintro ⟨s, hs, heq⟩
    obtain ⟨rfl, hname, hempty⟩ := (Symbol.ofSpelling_eq_terminal_iff (hl.spelling hs)).mp heq
    exact ⟨hs, hname, hempty⟩
  · rintro ⟨hs, hname, hempty⟩
    exact ⟨_, hs, (Symbol.ofSpelling_eq_terminal_iff (hl.spelling hs)).mpr ⟨rfl, hname, hempty⟩⟩

end Document

/-! ## Runs -/

namespace Parser

/-- Without an alternative for the start symbol a run ends with its first step. -/
theorem exists_run_of_choice?_eq_none {p : Parser} {w : String}
    (h : p.choice? p.grammar.start (ahead w.toList) = none) :
    ∃ r, p.run w = some r ∧ r.status = .rejected .unexpectedInput ∧ r.steps = 1 := by
  have haction : p.action (.midway [] w.toList [p.grammar.startSymbol] 0) =
      .reject .unexpectedInput := by
    rw [Grammar.startSymbol, action_nonTerminal, h]
  have hreach : p.Reaches (p.start w) _ _ := .step (.refl _) (step_reject haction)
  obtain ⟨r, hr⟩ := hreach.exists_run rfl
  obtain ⟨_, hstatus, hsteps⟩ := (hreach.of_run hr).1 rfl
  exact ⟨r, hr, hstatus.symm, hsteps.symm⟩

end Parser

namespace Configuration

/-- In a right-hand side the spelling of the end mark is read as a character, unless it is a rule key.
Of all terminals that a loaded grammar can have this is the only one that no lookahead is read as.
No table gives an alternative for it, so a sentence that begins with it is rejected with the first
step. -/
theorem the_end_spelling_is_a_terminal_without_a_lookahead {text : String} {d : Document}
    {c : Configuration} (hd : Document.ofText text = .ok d) (hc : ofText text = .ok c) :
    (.terminal '$' ∈ c.grammar.terminals ↔ d.Spells endSpelling ∧ endSpelling ∉ d.names) ∧
    (∀ x ∈ c.grammar.terminals, (∃ s, readLookahead s = .ok x) ↔ x ≠ .terminal '$') ∧
    (∀ nt, (Parser.ofConfiguration c).choice? nt (.terminal '$') = none) ∧
    ∀ w, w.toList.head? = some '$' → ∃ r, (Parser.ofConfiguration c).run w = some r ∧
      r.status = .rejected .unexpectedInput ∧ r.steps = 1 := by
  have hwf := wellFormed_of_ofText hc
  have hchoice : ∀ nt, (Parser.ofConfiguration c).choice? nt (.terminal '$') = none := by
    intro nt
    have hnone : c.table.lookup nt (.terminal '$') = none :=
      hwf.lookup_eq_none fun h : '$' ≠ '$' => h rfl
    simp [Parser.choice?, Parser.ofConfiguration, hnone]
  obtain ⟨hl, rfl⟩ := (ofText_eq_ok_iff hd).mp hc
  refine ⟨?_, ?_, hchoice, ?_⟩
  · refine hl.mem_terminals_iff.trans (and_congr_right fun _ => ?_)
    exact and_iff_left (by decide)
  · intro x hx
    cases x with
    | terminal ch =>
      rw [exists_readLookahead_iff, ne_eq, ne_eq, Symbol.terminal.injEq]
    | endMark => exact iff_of_true ⟨endSpelling, by decide⟩ Symbol.noConfusion
    | nonTerminal | empty => simp [Grammar.mem_terminals_iff, Symbol.isTerminal] at hx
  · intro w hw
    obtain ⟨v, hv⟩ := List.head?_eq_some_iff.mp hw
    apply Parser.exists_run_of_choice?_eq_none
    rw [hv]
    exact hchoice _

/-- `S → $`. -/
def endSpelled : Document where
  name := "g"
  start := "S"
  closing := none
  rules := [("S", .array [.array [.string "$"]])]
  first := []
  follow := []
  table := []

def endSpelledText : String :=
  "\x7b\"name\":\"g\",\"start\":\"S\",\"rules\":\x7b\"S\":[[\"$\"]]\x7d,\"table\":\x7b\x7d\x7d"

theorem ofText_endSpelledText : Document.ofText endSpelledText = .ok endSpelled := by cbv

theorem ofText_endSpelled : ofText endSpelledText = .ok endSpelled.described := by
  rw [ofText, ofText_endSpelledText]
  rfl

theorem spells_endSpelled : endSpelled.Spells endSpelling :=
  ⟨_, List.mem_cons_self, _, List.mem_cons_self, List.mem_cons_self⟩

/-- The one sentence of the grammar is rejected. -/
theorem the_sentence_of_the_end_spelling_is_rejected :
    Document.ofText endSpelledText = .ok endSpelled ∧
      ofText endSpelledText = .ok endSpelled.described ∧
      .terminal '$' ∈ endSpelled.described.grammar.terminals ∧
      endSpelled.described.grammar.Generates "$".toList ∧
      ∃ r, (Parser.ofConfiguration endSpelled.described).run "$" = some r ∧
        r.status = .rejected .unexpectedInput ∧ r.steps = 1 := by
  obtain ⟨hterminal, _, _, hrun⟩ :=
    the_end_spelling_is_a_terminal_without_a_lookahead ofText_endSpelledText ofText_endSpelled
  refine ⟨ofText_endSpelledText, ofText_endSpelled, hterminal.mpr ⟨spells_endSpelled, by decide⟩,
    ?_, hrun "$" rfl⟩
  have hproduction : endSpelled.described.grammar.production? 0 0 =
      some ⟨0, [.terminal '$']⟩ := rfl
  exact Grammar.derives_of_production? hproduction

/-- So a document with that spelling may load, and then not every terminal is read from a lookahead. -/
theorem not_every_terminal_is_a_lookahead :
    ¬ (∀ text d, Document.ofText text = .ok d → d.Spells endSpelling → endSpelling ∉ d.names →
      ∃ e, ofText text = .error e) ∧
    ¬ ∀ text c, ofText text = .ok c → ∀ x ∈ c.grammar.terminals, ∃ s, readLookahead s = .ok x := by
  constructor
  · intro h
    obtain ⟨e, he⟩ := h _ _ ofText_endSpelledText spells_endSpelled (by decide)
    rw [ofText_endSpelled] at he
    cases he
  · intro h
    obtain ⟨s, hs⟩ := h _ _ ofText_endSpelled (.terminal '$') (by decide)
    exact exists_readLookahead_iff.mp ⟨s, hs⟩ rfl

end Configuration

end TopDown
