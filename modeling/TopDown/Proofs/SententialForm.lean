-- What a run has done at each moment: the start symbol derives, from the left and by the
-- alternatives of the expansions so far, the consumed characters followed by the stack. No table
-- can break this, so a sentence that is accepted is one of the language.
import TopDown.Proofs.Steps

namespace TopDown.Parser

variable {p : Parser}

/-- An alternative is chosen if the table gives it and the grammar has it. -/
theorem choice?_eq_some_iff {nt k : Nat} {x : Symbol} :
    p.choice? nt x = some k ↔
      p.table.lookup nt x = some k ∧ ∃ q, p.grammar.production? nt k = some q := by
  simp only [choice?, Option.bind_eq_bind, Option.bind_eq_some_iff]
  constructor
  · rintro ⟨alternative, hlookup, h⟩
    split at h
    · next hq =>
      cases h
      exact ⟨hlookup, Option.isSome_iff_exists.mp hq⟩
    · cases h
  · rintro ⟨hlookup, hq⟩
    exact ⟨k, hlookup, if_pos (Option.isSome_iff_exists.mpr hq)⟩

/-- What an expansion applies is an alternative of the grammar. -/
theorem exists_of_choice? {nt k : Nat} {x : Symbol} (h : p.choice? nt x = some k) :
    ∃ q, p.grammar.production? nt k = some q ∧ p.expansion nt k = q.visible := by
  obtain ⟨_, q, hq⟩ := choice?_eq_some_iff.mp h
  exact ⟨q, hq, by simp [expansion, hq]⟩

/-! ## The invariant -/

/-- The start symbol derives `u` followed by `form`, by the alternatives `cs`. -/
def Derived (p : Parser) (cs : List Choice) (u : List Char) (form : List Symbol) : Prop :=
  p.grammar.Leftmost [p.grammar.startSymbol] cs (symbols u ++ form)

/-- How a run on `w` stands after `n` steps that applied `cs`. Each step is an expansion, consumes
a character, or ends the run. -/
inductive Stands (p : Parser) (w : List Char) (cs : List Choice) (n : Nat) : State → Prop
  | running {u v : List Char} {form : List Symbol} :
      w = u ++ v → p.Derived cs u form → n = u.length + cs.length →
      Stands p w cs n (.midway u v form n)
  | rejected {u v : List Char} {form : List Symbol} {reason : RejectReason} :
      w = u ++ v → p.Derived cs u form → n = u.length + cs.length + 1 →
      Stands p w cs n (rejectedState u v form n reason)
  | accepted {form : List Symbol} :
      OnEndMark form → p.Derived cs w form → n = w.length + cs.length + 1 →
      Stands p w cs n (acceptedState w form n)

theorem Derived.consume {cs : List Choice} {u : List Char} {c : Char} {form : List Symbol}
    (h : p.Derived cs u (.terminal c :: form)) : p.Derived cs (u ++ [c]) form := by
  unfold Derived at h ⊢
  simpa using h

theorem Derived.expand {cs : List Choice} {u : List Char} {nt k : Nat} {x : Symbol}
    {form : List Symbol} (h : p.Derived cs u (.nonTerminal nt :: form))
    (hk : p.choice? nt x = some k) :
    p.Derived (cs ++ [(nt, k)]) u (p.expansion nt k ++ form) := by
  obtain ⟨q, hq, hexp⟩ := exists_of_choice? hk
  unfold Derived at h ⊢
  rw [hexp, ← List.append_assoc]
  exact h.snoc (fun x hx => isNonTerminal_of_mem_symbols hx) hq

/-- Every move keeps the invariant. -/
theorem Move.stands {w u v : List Char} {form : List Symbol} {cs : List Choice} {n : Nat}
    {a : Action} {t : State} (hm : p.Move u n v form a t) (hw : w = u ++ v)
    (hd : p.Derived cs u form) (hn : n = u.length + cs.length) :
    Stands p w (cs ++ a.applied?.toList) (n + 1) t := by
  cases hm with
  | consume =>
    rw [Action.applied?, Option.toList_none, List.append_nil]
    refine .running (by simp [hw]) hd.consume ?_
    simp only [List.length_append, List.length_singleton]
    omega
  | expand hk =>
    refine .running hw (hd.expand hk) ?_
    simp only [Action.applied?, Option.toList_some, List.length_append, List.length_singleton]
    omega
  | accept hmark =>
    rw [Action.applied?, Option.toList_none, List.append_nil]
    rw [List.append_nil] at hw
    subst hw
    exact .accepted hmark hd (by omega)
  | reject =>
    rw [Action.applied?, Option.toList_none, List.append_nil]
    exact .rejected hw hd (by omega)

/-- The invariant holds in every state of a run. -/
theorem stands_of_reaches {w : String} {rs : List Record} {t : State}
    (h : p.Reaches (p.start w) rs t) : Stands p w.toList (applied rs) rs.length t := by
  induction h with
  | refl =>
    have hstart : p.Derived [] [] [p.grammar.startSymbol] := .refl _
    exact .running rfl hstart rfl
  | @step t next rs r _ ht ih =>
    have hr : applied (rs ++ [r]) = applied rs ++ r.action.applied?.toList := by
      rw [applied_append, applied_cons, applied_nil, List.append_nil]
    rw [hr, List.length_append, List.length_singleton]
    cases ih with
    | @running u v form hw hd hn =>
      obtain ⟨a, t', hmove, hstep⟩ := p.moves u v form rs.length
      rw [hstep] at ht
      cases ht
      exact hmove.stands hw hd hn
    | rejected =>
      rw [step_finished rfl] at ht
      cases ht
    | accepted =>
      rw [step_finished rfl] at ht
      cases ht

/-- The last step of a run is a move from the middle of it, and its record tells that place. -/
theorem Reaches.exists_move {w : String} {rs : List Record} {s t : State} {r : Record}
    (h : p.Reaches (p.start w) rs s) (hs : p.step s = (t, some r)) :
    ∃ u v form a, w.toList = u ++ v ∧ p.Derived (applied rs) u form ∧
      s = .midway u v form rs.length ∧ p.Move u rs.length v form a t ∧
      r = ⟨rs.length + 1, form ++ [.endMark], symbols v ++ [.endMark], a⟩ := by
  cases stands_of_reaches h with
  | rejected =>
    rw [step_finished rfl] at hs
    cases hs
  | accepted =>
    rw [step_finished rfl] at hs
    cases hs
  | @running u v form hw hd _ =>
    obtain ⟨a, t', hmove, hstep⟩ := p.moves u v form rs.length
    rw [hstep] at hs
    cases hs
    exact ⟨u, v, form, a, hw, hd, rfl, hmove, rfl⟩

/-- An expansion of a run was chosen under what was ahead in the sentence. -/
theorem Reaches.exists_ahead {w : String} {rs : List Record} {t : State}
    (h : p.Reaches (p.start w) rs t) {r : Record} (hr : r ∈ rs) {nt k : Nat} {x : Symbol}
    (hx : r.action = .expand nt x k) :
    ∃ u v, w.toList = u ++ v ∧ x = ahead v ∧ p.choice? nt x = some k := by
  obtain ⟨qs, before, next, hreach, hstep⟩ := h.exists_step hr
  obtain ⟨u, v, form, a, hw, _, _, hmove, rfl⟩ := hreach.exists_move hstep
  cases hmove with
  | expand hchoice =>
    cases hx
    exact ⟨u, v, hw, rfl, hchoice⟩
  | consume | accept | reject => cases hx

end TopDown.Parser
