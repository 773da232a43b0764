-- A parser accepts nothing but sentences of its grammar, whatever its table says: the table may be
-- inconsistent, or made for another grammar.
import Mathlib
import TopDown.Proofs.BuiltIn.Loaded
import TopDown.Proofs.Loading
import TopDown.Proofs.SententialForm

namespace TopDown.Parser

variable {p : Parser}

/-- Without an end mark in the rules, the one at the bottom is the only one on the stack. -/
theorem Derived.endMark_not_mem (hg : p.grammar.NoEndMark) {cs : List Choice} {u : List Char}
    {form : List Symbol} (h : p.Derived cs u form) : .endMark ∉ form := by
  have hnot : .endMark ∉ symbols u ++ form :=
    h.not_mem (fun _ _ _ hq => hg.not_mem_visible hq) (by simp [Grammar.startSymbol])
  exact fun hmem => hnot (List.mem_append_right _ hmem)

/-- Then a form that is on the end mark is empty. -/
theorem Derived.eq_nil (hg : p.grammar.NoEndMark) {cs : List Choice} {u : List Char}
    {form : List Symbol} (h : p.Derived cs u form) (hmark : OnEndMark form) : form = [] := by
  have hnot := h.endMark_not_mem hg
  rcases form with _ | ⟨x, form⟩
  · rfl
  · simp only [OnEndMark, List.cons_append, List.head?_cons, Option.some.injEq] at hmark
    exact absurd (hmark ▸ List.mem_cons_self) hnot

/-- The sentence is of the language: the expansions on record derive it from the left, and each of
the other steps consumes a character or the end mark. -/
structure Explains (p : Parser) (w : String) (rs : List Record) (steps : Nat) : Prop where
  generates : p.grammar.Generates w.toList
  derivation : p.grammar.Leftmost [p.grammar.startSymbol] (applied rs) (symbols w.toList)
  steps_eq : steps = w.length + 1 + (applied rs).length

theorem Reaches.explains (hg : p.grammar.NoEndMark) {w : String} {rs : List Record} {t : State}
    (h : p.Reaches (p.start w) rs t) (ha : t.status = .accepted) : p.Explains w rs t.steps := by
  cases stands_of_reaches h with
  | running => cases ha
  | rejected => cases ha
  | accepted hmark hd hn =>
    have hleft : p.grammar.Leftmost [p.grammar.startSymbol] (applied rs) (symbols w.toList) := by
      have hnil := hd.eq_nil hg hmark
      subst hnil
      simpa [Derived] using hd
    refine ⟨hleft.derives, hleft, ?_⟩
    simp only [acceptedState, State.midway, hn, String.length_toList]
    omega

/-- The report of a run that accepts. -/
theorem explains_of_run (hg : p.grammar.NoEndMark) {w : String} {r : Report}
    (h : p.run w = some r) (ha : r.status = .accepted) : p.Explains w r.trace r.steps := by
  obtain ⟨t, hreach, _, hstatus, hsteps⟩ := reaches_of_runWithin h
  rw [← hsteps]
  exact hreach.explains hg (hstatus.trans ha)

/-- Before the end of a run the start symbol derives what is consumed, followed by what stands on
the end mark at the bottom of the stack. -/
theorem Reaches.derived {w : String} {rs : List Record} {t : State}
    (h : p.Reaches (p.start w) rs t) (ha : t.status ≠ .accepted) :
    ∃ form, t.stack = form ++ [.endMark] ∧ t.cursor ≤ w.length ∧
      p.grammar.Leftmost [p.grammar.startSymbol] (applied rs)
        (symbols (w.toList.take t.cursor) ++ form) := by
  have hmid : ∀ {u v : List Char} {form : List Symbol}, w.toList = u ++ v →
      p.Derived (applied rs) u form → u.length ≤ w.length ∧
        p.grammar.Leftmost [p.grammar.startSymbol] (applied rs)
          (symbols (w.toList.take u.length) ++ form) := by
    intro u v form hw hd
    have hlen : w.length = u.length + v.length := by
      rw [← String.length_toList, hw, List.length_append]
    refine ⟨by omega, ?_⟩
    rw [hw, List.take_left]
    exact hd
  cases stands_of_reaches h with
  | running hw hd _ => exact ⟨_, rfl, hmid hw hd⟩
  | rejected hw hd _ => exact ⟨_, rfl, hmid hw hd⟩
  | accepted => exact absurd rfl ha

/-- No loaded grammar has the end mark in its rules. For every grammar without it and every table,
a run that has not accepted is a leftmost derivation of what it consumed followed by its stack, and
a run that accepts is a leftmost derivation of the sentence, one step for each alternative, each
character and the end. -/
theorem every_run_is_a_leftmost_derivation :
    (∀ text c, Configuration.ofText text = .ok c → c.grammar.NoEndMark) ∧
    ∀ p : Parser, p.grammar.NoEndMark → ∀ w : String,
      (∀ rs t, p.Reaches (p.start w) rs t → t.status ≠ .accepted →
        ∃ form, t.stack = form ++ [.endMark] ∧ t.cursor ≤ w.length ∧
          p.grammar.Leftmost [p.grammar.startSymbol] (applied rs)
            (symbols (w.toList.take t.cursor) ++ form)) ∧
      (∀ rs t, p.Reaches (p.start w) rs t → t.status = .accepted →
        p.Explains w rs t.steps) ∧
      ∀ r, p.run w = some r → r.isAccepted = true → p.Explains w r.trace r.steps := by
  refine ⟨?_, ?_⟩
  · intro text c h
    exact Configuration.noEndMark_of_ofText h
  · intro p hg w
    refine ⟨?_, ?_, ?_⟩
    · intro rs t h ha
      exact h.derived ha
    · intro rs t h ha
      exact h.explains hg ha
    · intro r h ha
      exact explains_of_run hg h (of_decide_eq_true ha)

/-- A small document, a string that is rejected after one character, and one that is accepted. -/
theorem runs_on_ca_and_on_ccc_are_derivations :
    (∃ text c, Configuration.ofText text = .ok c ∧ c.grammar.NoEndMark) ∧
    BuiltIn.grammar.NoEndMark ∧
    (∃ rs t, (ofConfiguration BuiltIn.loaded).Reaches (start (ofConfiguration BuiltIn.loaded) "ca")
      rs t ∧ t.status ≠ .accepted ∧ ∃ form, t.stack = form ++ [.endMark] ∧
        t.cursor ≤ "ca".length ∧ BuiltIn.grammar.Leftmost [BuiltIn.grammar.startSymbol]
          (applied rs) (symbols ("ca".toList.take t.cursor) ++ form)) ∧
    ∃ r, (ofConfiguration BuiltIn.loaded).run "ccc" = some r ∧ r.isAccepted = true ∧
      Explains (ofConfiguration BuiltIn.loaded) "ccc" r.trace r.steps := by
  obtain ⟨hload, hrun⟩ := every_run_is_a_leftmost_derivation
  have hruns := hrun (ofConfiguration BuiltIn.loaded) BuiltIn.noEndMark
  refine ⟨?_, BuiltIn.noEndMark, ?_, ?_⟩
  · have hok : (Configuration.ofText
        "[\"n\", \"S\", null, \x7b\"S\": [[\"a\"]]\x7d, \x7b\x7d, \x7b\x7d, \x7b\x7d]").isOk = true := by
      cbv
    obtain ⟨c, hc⟩ := exists_of_isOk hok
    exact ⟨_, c, hc, hload _ c hc⟩
  · have hca : ((ofConfiguration BuiltIn.loaded).run "ca").any
        (fun r => r.status ≠ .accepted) = true := by cbv
    obtain ⟨r, hr, hstatus⟩ := (Option.any_eq_true _ _).mp hca
    obtain ⟨t, hreach, _, ht, _⟩ := reaches_of_runWithin hr
    have hne : t.status ≠ .accepted := by
      rw [ht]
      exact of_decide_eq_true hstatus
    exact ⟨r.trace, t, hreach, hne, (hruns "ca").1 _ _ hreach hne⟩
  · have hccc : (ofConfiguration BuiltIn.loaded).recognizes "ccc" = true := by cbv
    obtain ⟨r, hr, ha⟩ := (Option.any_eq_true _ _).mp hccc
    exact ⟨r, hr, ha, (hruns "ccc").2.2 r hr ha⟩

end TopDown.Parser
