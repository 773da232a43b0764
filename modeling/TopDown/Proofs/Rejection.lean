-- Where a run is rejected. Under a predictive table a run only expands in ways in which every sentence
-- that begins like its own, up to the symbol ahead, can still be finished. So it does not consume past
-- the first symbol that no sentence goes on with, although it may expand on it before it rejects.
import Mathlib
import TopDown.Proofs.BuiltIn.Lists
import TopDown.Proofs.Completeness

namespace TopDown

theorem State.midway_inj {u v u' v' : List Char} {form form' : List Symbol} {n n' : Nat}
    (h : midway u v form n = midway u' v' form' n') :
    u = u' ∧ v = v' ∧ form = form' ∧ n = n' := by
  injection h with hstack hinput hcursor hsteps _
  have hchars : u ++ v = u' ++ v' := by
    have hinj : Function.Injective Symbol.terminal := fun _ _ hc => Symbol.terminal.inj hc
    exact List.map_injective_iff.mpr hinj (List.append_cancel_right hinput)
  obtain ⟨hu, hv⟩ := List.append_inj hchars hcursor
  exact ⟨hu, hv, List.append_cancel_right hstack, hsteps⟩

namespace Grammar

/-- The non-terminal is the start symbol, or stands in an alternative. -/
def Occurs (g : Grammar) (nt : Nat) : Prop :=
  nt = g.start ∨ ∃ lhs k p, g.production? lhs k = some p ∧ .nonTerminal nt ∈ p.rhs

theorem WellFormed.lt_of_occurs {g : Grammar} (hg : g.WellFormed) {nt : Nat} (h : g.Occurs nt) :
    nt < g.names.length := by
  rcases h with rfl | ⟨lhs, k, p, hp, hmem⟩
  · exact hg.start_lt
  · exact (hg.fits hp).rhs_fits _ hmem

/-- Where every non-terminal derives a string, so does every alternative. -/
theorem productive_of_completes {g : Grammar} (hg : g.NoEndMark)
    (h : ∀ nt, g.Occurs nt → g.Completes [.nonTerminal nt]) : g.Productive where
  start := h g.start (Or.inl rfl)
  alternative lhs k p hp := by
    refine completes_of_forall fun x hx => ?_
    cases x with
    | terminal c => exact completes_terminal c
    | nonTerminal nt => exact h nt (Or.inr ⟨lhs, k, p, hp, (List.mem_filter.mp hx).1⟩)
    | empty => exact absurd hx (empty_not_mem_visible p)
    | endMark => exact absurd hx (hg.not_mem_visible hp)

end Grammar

namespace Parser

variable {p : Parser}

/-! ## Sentences that a run has not ruled out -/

/-- What a sentence has after `u` is derived from the stack, if it is a sentence that shares with
the run's own the part `u` and the symbol ahead. The induction is on the steps of the run. -/
theorem Reaches.yields (ht : Predictive p.grammar p.table) {w : String} {rs : List Record}
    {u v y : List Char} {form : List Symbol} {n : Nat}
    (h : p.Reaches (p.start w) rs (.midway u v form n)) (hy : ahead y = ahead v)
    (hw : p.grammar.Generates (u ++ y)) : ∃ cs, p.grammar.Yields form cs y := by
  generalize hs : State.midway u v form n = s at h
  induction h generalizing u v y form n with
  | refl =>
    rw [start_eq_midway] at hs
    obtain ⟨rfl, rfl, rfl, rfl⟩ := State.midway_inj hs
    exact Grammar.yields_of_derives hw
  | step hreach hstep ih =>
    obtain ⟨u, v, form, a, _, hd, rfl, hmove, _⟩ := hreach.exists_move hstep
    cases hmove with
    | @consume c v form =>
      obtain ⟨rfl, rfl, rfl, rfl⟩ := State.midway_inj hs
      rw [List.append_assoc] at hw
      have hahead : ahead (c :: y) = ahead (c :: v) := rfl
      obtain ⟨cs, hcs⟩ := ih hahead hw rfl
      obtain ⟨y', heq, hy'⟩ := Grammar.yields_terminal_iff.mp hcs
      cases heq
      exact ⟨cs, hy'⟩
    | @expand v nt k form hk =>
      obtain ⟨rfl, rfl, rfl, rfl⟩ := State.midway_inj hs
      obtain ⟨cs, hcs⟩ := ih hy hw rfl
      obtain ⟨k', q, ds, rfl, hq, hds⟩ := Grammar.yields_nonTerminal_iff.mp hcs
      -- The table has one alternative for the symbol ahead, so it is the one of the sentence.
      have hlookup := ht _ _ nt form k' q y hd hq hds.derives
      rw [hy] at hlookup
      obtain ⟨hk', hexp⟩ := choice?_of_lookup hlookup hq
      rw [hk] at hk'
      cases hk'
      exact ⟨ds, hexp ▸ hds⟩
    | accept => cases congrArg State.status hs
    | reject => cases congrArg State.status hs

/-- A stack that derives a string with the symbol ahead in front is not rejected. -/
theorem action_ne_reject (ht : Predictive p.grammar p.table) {u v y : List Char}
    {form : List Symbol} {cs ds : List Choice} {n : Nat} (hd : p.Derived ds u form)
    (hy : ahead y = ahead v) (h : p.grammar.Yields form cs y) (reason : RejectReason) :
    p.action (.midway u v form n) ≠ .reject reason := by
  cases h with
  | nil =>
    have hmark : OnEndMark [] := rfl
    rw [action_endMark hmark, ← hy]
    simp [ahead]
  | terminal =>
    rw [action_terminal, ← hy]
    simp [ahead]
  | nonTerminal hq hrest =>
    have hlookup := ht _ _ _ _ _ _ _ hd hq hrest.derives
    rw [action_nonTerminal, ← hy, (choice?_of_lookup hlookup hq).1]
    simp

/-! ## The place of a rejection -/

/-- The last step of a run that is rejected. -/
theorem Reaches.exists_reject {w : String} {rs : List Record} {t : State} {reason : RejectReason}
    (h : p.Reaches (p.start w) rs t) (hs : t.status = .rejected reason) :
    ∃ qs u v form, w.toList = u ++ v ∧ t.cursor = u.length ∧ p.Derived (applied qs) u form ∧
      p.Reaches (p.start w) qs (.midway u v form qs.length) ∧
      p.action (.midway u v form qs.length) = .reject reason ∧
      rs = qs ++ [⟨qs.length + 1, form ++ [.endMark], symbols v ++ [.endMark],
        .reject reason⟩] := by
  cases h with
  | refl => cases hs
  | @step s _ qs r hreach hstep =>
    obtain ⟨u, v, form, a, hw, hd, rfl, hmove, rfl⟩ := hreach.exists_move hstep
    cases hmove with
    | consume | expand | accept => cases hs
    | reject haction =>
      cases hs
      exact ⟨qs, u, v, form, hw, rfl, hd, hreach, haction, rfl⟩

/-- The string `w` leaves the language between `u` and `v`: a sentence begins with `u`, none goes on
with the next character, and if there is none then `w` itself is no sentence. -/
structure LeavesAt (g : Grammar) (w u v : List Char) : Prop where
  split : w = u ++ v
  continues : ∃ y, g.Generates (u ++ y)
  fails : ∀ c rest, v = c :: rest → ∀ y, ¬ g.Generates (u ++ c :: y)
  ends : v = [] → ¬ g.Generates w

/-- What is ahead of a run that is rejected comes next in no sentence. -/
theorem Reaches.leavesAt (ht : Predictive p.grammar p.table) (hg : p.grammar.Productive)
    {w : String} {rs : List Record} {u v : List Char} {form : List Symbol} {n : Nat}
    {cs : List Choice} {reason : RejectReason}
    (h : p.Reaches (p.start w) rs (.midway u v form n)) (hd : p.Derived cs u form)
    (hw : w.toList = u ++ v) (ha : p.action (.midway u v form n) = .reject reason) :
    LeavesAt p.grammar w.toList u v := by
  have hnone : ∀ y, ahead y = ahead v → ¬ p.grammar.Generates (u ++ y) := by
    intro y hy hgen
    obtain ⟨ds, hds⟩ := h.yields ht hy hgen
    exact action_ne_reject ht hd hy hds reason ha
  refine ⟨hw, ?_, ?_, ?_⟩
  · obtain ⟨y, hy⟩ := (Grammar.completes_append_iff.mp
      (hg.completes_of_derives hd.derives hg.start)).2
    refine ⟨y, hd.derives.trans ?_⟩
    rw [symbols_append]
    exact Grammar.Derives.append .refl hy
  · rintro c rest rfl y
    exact hnone (c :: y) rfl
  · rintro rfl
    rw [hw]
    exact hnone [] rfl

/-- Under a predictive table a run that is rejected has consumed exactly what its sentence shares
with the language: some sentence begins with it, and none goes on with the symbol that the last
record has ahead. The grammar may be any without the end mark in its rules in which every
non-terminal derives a string. -/
theorem a_rejected_run_stops_where_no_sentence_goes_on (p : Parser) (hg : p.grammar.NoEndMark)
    (hcompletes : ∀ nt, p.grammar.Occurs nt → p.grammar.Completes [.nonTerminal nt])
    (ht : Predictive p.grammar p.table) (w : String) :
    (∀ rs t reason, p.Reaches (p.start w) rs t → t.status = .rejected reason →
      LeavesAt p.grammar w.toList (w.toList.take t.cursor) (w.toList.drop t.cursor) ∧
      ∃ last ∈ rs.getLast?, last.action = .reject reason ∧
        last.remaining = symbols (w.toList.drop t.cursor) ++ [.endMark]) ∧
    ∀ r reason, p.run w = some r → r.status = .rejected reason →
      ∃ u v, LeavesAt p.grammar w.toList u v ∧
        ∃ last ∈ r.trace.getLast?, last.action = .reject reason ∧
          last.remaining = symbols v ++ [.endMark] := by
  have hproductive := Grammar.productive_of_completes hg hcompletes
  have hreaches : ∀ rs t reason, p.Reaches (p.start w) rs t → t.status = .rejected reason →
      LeavesAt p.grammar w.toList (w.toList.take t.cursor) (w.toList.drop t.cursor) ∧
      ∃ last ∈ rs.getLast?, last.action = .reject reason ∧
        last.remaining = symbols (w.toList.drop t.cursor) ++ [.endMark] := by
    intro rs t reason h hs
    obtain ⟨qs, u, v, form, hw, hcursor, hd, hreach, ha, rfl⟩ := h.exists_reject hs
    have hu : w.toList.take t.cursor = u := by rw [hw, hcursor, List.take_left]
    have hv : w.toList.drop t.cursor = v := by rw [hw, hcursor, List.drop_left]
    rw [hu, hv]
    exact ⟨hreach.leavesAt ht hproductive hd hw ha, _, by rw [List.getLast?_concat]; rfl, rfl, rfl⟩
  refine ⟨hreaches, ?_⟩
  intro r reason hrun hs
  obtain ⟨t, hreach, _, hstatus, _⟩ := reaches_of_runWithin hrun
  obtain ⟨hleaves, hlast⟩ := hreaches r.trace t reason hreach (hstatus.trans hs)
  exact ⟨_, _, hleaves, hlast⟩

/-- On `cdb` the built-in table still makes `D` empty for the sake of the `b`, which can follow a `D`
elsewhere; but `cd` is all that is consumed. -/
theorem cdb_is_rejected_at_its_b : BuiltIn.grammar.NoEndMark ∧
    (∀ nt, BuiltIn.grammar.Occurs nt → BuiltIn.grammar.Completes [.nonTerminal nt]) ∧
    Predictive BuiltIn.grammar BuiltIn.parsingTable ∧
    ∃ rs t reason, (ofConfiguration BuiltIn.loaded).Reaches
        (start (ofConfiguration BuiltIn.loaded) "cdb") rs t ∧ t.status = .rejected reason ∧
      (4, 1) ∈ applied rs ∧ LeavesAt BuiltIn.grammar "cdb".toList ['c', 'd'] ['b'] := by
  have hcompletes : ∀ nt, BuiltIn.grammar.Occurs nt → BuiltIn.grammar.Completes [.nonTerminal nt] :=
    fun _ h => BuiltIn.completes_nonTerminal (BuiltIn.wellFormed.grammar.lt_of_occurs h)
  obtain ⟨hleaves, _⟩ := a_rejected_run_stops_where_no_sentence_goes_on
    (ofConfiguration BuiltIn.loaded) BuiltIn.noEndMark hcompletes BuiltIn.predictive "cdb"
  have hcdb : ((ofConfiguration BuiltIn.loaded).runFrom 10
      (start (ofConfiguration BuiltIn.loaded) "cdb")).any (fun x =>
        x.1.status = .rejected .unexpectedTop ∧ x.1.cursor = 2 ∧ (4, 1) ∈ applied x.2) = true := by
    cbv
  obtain ⟨⟨t, rs⟩, hrun, h⟩ := (Option.any_eq_true _ _).mp hcdb
  obtain ⟨hstatus, hcursor, happlied⟩ := of_decide_eq_true h
  obtain ⟨hreach, _⟩ := reaches_of_runFrom hrun
  have hcd := (hleaves rs t _ hreach hstatus).1
  simp only at hcursor
  rw [hcursor] at hcd
  exact ⟨BuiltIn.noEndMark, hcompletes, BuiltIn.predictive, rs, t, _, hreach, hstatus, happlied, hcd⟩

end Parser

end TopDown
