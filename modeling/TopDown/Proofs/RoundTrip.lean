-- From the generator to the parser and back. Under a predictive table the run on a generated
-- sentence expands what the generator applied, so the two tell of one derivation in one text.
import Mathlib
import TopDown.Display.Trace
import TopDown.Proofs.Completeness
import TopDown.Proofs.Generated

namespace TopDown

/-- The records of expansions, in order. -/
def expansions (records : List Record) : List Record :=
  records.filter fun r => r.action.applied?.isSome

/-- An expansion is described by the alternative that it applies. -/
theorem map_describe_expansions (g : Grammar) (rs : List Record) :
    (expansions rs).map (fun r => r.action.describe g) =
      (applied rs).map fun c => ((g.production? c.1 c.2).map g.write).getD "?" := by
  induction rs with
  | nil => rfl
  | cons r rs ih =>
    rw [applied_cons, List.map_append, ← ih]
    unfold expansions
    cases h : r.action with
    | expand nt x k => simp [h, Action.applied?, Action.describe]
    | consume x => simp [h, Action.applied?]
    | reject reason => simp [h, Action.applied?]

/-- The texts of a derivation are those of the alternatives that it applies. -/
theorem Derivation.trace_eq_map {g : Grammar} {d : Derivation} {cs : List Choice}
    (h : d.productions.map some = cs.map fun c => g.production? c.1 c.2) :
    d.trace g = cs.map fun c => ((g.production? c.1 c.2).map g.write).getD "?" := by
  calc d.trace g = (d.productions.map some).map fun q => (q.map g.write).getD "?" := by
        rw [List.map_map]
        rfl
    _ = _ := by
        rw [h, List.map_map]
        rfl

/-- A run on a generated sentence. -/
structure Retraces (c : Configuration) (d : Derivation) (r : Report) : Prop where
  accepted : r.status = .accepted
  describe_eq : (expansions r.trace).map (fun e => e.action.describe c.grammar) =
    d.trace c.grammar
  steps_eq : r.steps = d.sentence.length + (d.trace c.grammar).length + 1

/-- The generator may be of any policy and depth, and draw its choices from anything. -/
theorem exists_run_retraces {σ : Type} [Chooser σ] {c : Configuration} {g : Generator}
    (hg : g.grammar = c.grammar) (hmark : c.grammar.NoEndMark)
    (ht : Predictive c.grammar c.table) {budget : Int} {source source' : σ} {d : Derivation}
    (h : g.derive budget source = (.ok d, source')) :
    ∃ r, (Parser.ofConfiguration c).run d.sentence = some r ∧ Retraces c d r := by
  rw [← hg] at hmark
  obtain ⟨cs, hcs, hprod⟩ := Generator.leftmost_of_derive hmark h
  rw [hg] at hcs hprod
  have hword : d.sentence.toList = d.output := String.toList_ofList
  rw [← hword] at hcs
  have htrace := Derivation.trace_eq_map hprod
  obtain ⟨r, hrun, hstatus, happ, hsteps⟩ :=
    Parser.run_of_leftmost (p := Parser.ofConfiguration c) ht hcs
  refine ⟨r, hrun, hstatus, ?_, ?_⟩
  · rw [map_describe_expansions, happ, htrace]
  · rw [hsteps, htrace, List.length_map]

/-- Whatever the generator of the built-in grammar chooses, if it comes to a sentence then the
parser accepts it, by the productions that the generator lists and in one step for each of them,
each character and the end. -/
theorem generated_sentences_are_parsed_as_they_were_generated :
    ∃ c, BuiltIn.configuration = .ok c ∧
      ∀ (σ : Type) [Chooser σ] (maxDepth : Nat) (budget : Int) (source source' : σ)
        (d : Derivation),
        { Generator.ofConfiguration c with maxDepth }.derive budget source = (.ok d, source') →
        ∃ r, (Parser.ofConfiguration c).run d.sentence = some r ∧ Retraces c d r := by
  refine ⟨BuiltIn.loaded, BuiltIn.configuration_eq, ?_⟩
  intro σ _ maxDepth budget source source' d h
  exact exists_run_retraces rfl BuiltIn.noEndMark BuiltIn.predictive h

/-- The string `accca`, which takes seven choices, the budget being used up after the first. -/
theorem accca_is_parsed_as_it_was_generated :
    ∃ c d source', BuiltIn.configuration = .ok c ∧
      { Generator.ofConfiguration c with maxDepth := 6 }.derive 2
        (Source.ofStream (.ofList [0, 0x8000000000000000])) = (.ok d, source') ∧
      d.sentence = "accca" ∧
      ∃ r, (Parser.ofConfiguration c).run d.sentence = some r ∧ Retraces c d r := by
  obtain ⟨c, hc, hround⟩ := generated_sentences_are_parsed_as_they_were_generated
  have hloaded : c = BuiltIn.loaded := by
    rw [BuiltIn.configuration_eq] at hc
    exact (Except.ok.inj hc).symm
  subst hloaded
  have hd : ({ Generator.ofConfiguration BuiltIn.loaded with maxDepth := 6 }.derive 2
      (Source.ofStream (.ofList [0, 0x8000000000000000]))).1 =
        .ok ⟨"accca".toList,
          [(0, 0), (1, 1), (4, 1), (2, 1), (3, 0), (4, 1), (4, 1)].filterMap fun (nt, k) =>
            BuiltIn.grammar.production? nt k⟩ := by
    cbv
  refine ⟨_, _, _, hc, Prod.ext hd rfl, ?_, hround _ 6 2 _ _ _ (Prod.ext hd rfl)⟩
  exact String.ofList_toList

end TopDown
