-- Blanks around a sentence do not count, and a sentence that is accepted has none. A table can only
-- select alternatives that some text has named by its words, and all that a run consumes before it
-- accepts are terminals of selected alternatives, so what is accepted is made of words.
import Mathlib
import TopDown.CommandLine.Outcome
import TopDown.Proofs.Legible
import TopDown.Proofs.Soundness

namespace TopDown

/-! ## What a run consumes -/

namespace Parser

variable {p : Parser} {w : String}

/-- What a run has applied was chosen under some lookahead. -/
theorem Reaches.exists_choice {rs : List Record} {t : State} (h : p.Reaches (p.start w) rs t)
    {nt k : Nat} (hk : (nt, k) ∈ applied rs) : ∃ x, p.choice? nt x = some k := by
  obtain ⟨r, hr, happlied⟩ := List.mem_filterMap.mp hk
  cases ha : r.action with
  | expand nt' x k' =>
    rw [ha, Action.applied?] at happlied
    cases happlied
    obtain ⟨_, _, _, _, hchoice⟩ := h.exists_ahead hr ha
    exact ⟨x, hchoice⟩
  | consume | reject =>
    rw [ha] at happlied
    cases happlied

/-- Each character of a sentence that is accepted stands in an alternative that the table selects. -/
theorem exists_selected_of_run (hg : p.grammar.NoEndMark) {r : Report} (hr : p.run w = some r)
    (ha : r.status = .accepted) {ch : Char} (hch : ch ∈ w.toList) :
    ∃ nt x q, p.table.production? p.grammar nt x = some q ∧ .terminal ch ∈ q.rhs := by
  obtain ⟨t, hreach, _⟩ := reaches_of_runWithin hr
  -- What is derived is the start symbol, or was brought in by an alternative that was applied.
  refine (explains_of_run hg hr ha).derivation.forall_mem
    (P := fun m => m = .terminal ch →
      ∃ nt x q, p.table.production? p.grammar nt x = some q ∧ .terminal ch ∈ q.rhs)
    ?_ ?_ (.terminal ch) (List.mem_map.mpr ⟨ch, hch, rfl⟩) rfl
  · rintro nt k q hk hq m hm rfl
    obtain ⟨x, hx⟩ := hreach.exists_choice hk
    refine ⟨nt, x, q, ?_, (List.mem_filter.mp hm).1⟩
    simp [ParsingTable.production?, (choice?_eq_some_iff.mp hx).1, hq]
  · rintro m hm rfl
    simp [Grammar.startSymbol] at hm

end Parser

/-! ## What a table selects -/

namespace Configuration

variable {c : Configuration}

/-- It is what some text is loaded to, or the built-in configuration. -/
def Loaded (c : Configuration) : Prop :=
  (∃ text, ofText text = .ok c) ∨ BuiltIn.configuration = .ok c

theorem Loaded.legible (h : c.Loaded) : c.Legible := by
  rcases h with ⟨text, h⟩ | h
  · obtain ⟨d, hd, hc⟩ := exists_document_of_ofText h
    exact Document.legible_of_configuration (Document.distinct_of_ofText hd) hc
  · exact Document.legible_of_configuration BuiltIn.distinct h

/-- A terminal of an alternative that the table selects is written in a word. -/
theorem Legible.not_blank (h : c.Legible) {nt : Nat} {x : Symbol} {q : Production}
    (hq : c.table.production? c.grammar nt x = some q) {ch : Char} (hch : .terminal ch ∈ q.rhs) :
    Text.isBlank ch = false ∧ ch ≠ 'ε' := by
  simp only [ParsingTable.production?, Option.bind_eq_bind, Option.bind_eq_some_iff] at hq
  obtain ⟨k, hlookup, hq⟩ := hq
  obtain ⟨text, htext⟩ := h.table.named _ (Keyed.mem_of_get? hlookup)
  obtain ⟨ws, hwords, hws⟩ := Grammar.exists_words_of_alternativeOf? htext
  have hword : Text.IsWord ch.toString := by
    apply hwords
    rw [← Grammar.map_spell_of_spelledBy? hws hq]
    exact List.mem_map.mpr ⟨_, hch, rfl⟩
  have hfits : Symbol.Fits c.grammar.names (.terminal ch) :=
    (h.wellFormed.grammar.fits hq).rhs_fits _ hch
  refine ⟨hword.2 ch ?_, hfits.1⟩
  rw [Char.toString_eq_singleton, String.toList_singleton]
  exact List.mem_singleton.mpr rfl

end Configuration

/-! ## The command -/

namespace CommandLine

/-- What is printed of a sentence that is accepted. -/
def acceptedText (c : Configuration) (w : String) (r : Report) (json : Bool) : String :=
  if json then r.json c.grammar w ++ "\n"
  else traceText c.grammar r.trace ++ "\n\n[✓] " ++ r.verdict ++ "\n"

theorem parse_of_accepted {c : Configuration} {w : String} {r : Report}
    (hr : (Parser.ofConfiguration c).run w = some r) (ha : r.isAccepted = true) (json : Bool) :
    parse c w json = .success (acceptedText c w r json) := by
  have hmark : "\n\n[✓] " = "\n\n[" ++ "✓" ++ "] " := by decide
  unfold parse acceptedText Outcome.success
  rw [hmark]
  simp only [hr, ha, if_true, String.append_assoc]

theorem loaded_of_load {around : Surroundings} {path : Option String} {c : Configuration}
    (h : load around path = .ok c) : c.Loaded := by
  unfold load at h
  cases path with
  | none => exact .inr (mapError_eq_ok_iff.mp h)
  | some path =>
    obtain ⟨bytes, _, hbytes⟩ := bind_eq_ok_iff.mp (mapError_eq_ok_iff.mp h)
    split at hbytes
    · exact .inl ⟨_, hbytes⟩
    · cases hbytes

/-- Each character of a sentence that a loaded configuration accepts stands in an alternative that
its table selects, and is neither a blank nor the empty marker's. So trimming leaves the sentence as
it is, and the command that parses it shows this very run and ends well. -/
theorem trimming_changes_no_accepted_sentence {c : Configuration} (hc : c.Loaded) {w : String}
    {r : Report} (hr : (Parser.ofConfiguration c).run w = some r) (ha : r.isAccepted = true) :
    (∀ ch ∈ w.toList,
      (∃ nt x q, c.table.production? c.grammar nt x = some q ∧ .terminal ch ∈ q.rhs) ∧
      Text.isBlank ch = false ∧ ch ≠ 'ε') ∧
    Text.trim w = w ∧
    ∀ around arguments path json, readArguments arguments = .ok ⟨path, .parse w json⟩ →
      load around path = .ok c →
      respond around arguments = ⟨0, acceptedText c w r json, ""⟩ := by
  have hlegible := hc.legible
  have hchars : ∀ ch ∈ w.toList,
      (∃ nt x q, c.table.production? c.grammar nt x = some q ∧ .terminal ch ∈ q.rhs) ∧
      Text.isBlank ch = false ∧ ch ≠ 'ε' := by
    intro ch hch
    obtain ⟨nt, x, q, hq, hmem⟩ := Parser.exists_selected_of_run
      hlegible.wellFormed.grammar.noEndMark hr (of_decide_eq_true ha) hch
    exact ⟨⟨nt, x, q, hq, hmem⟩, hlegible.not_blank hq hmem⟩
  have htrim : Text.trim w = w := Text.trim_eq_self fun ch hch => (hchars ch hch).2.1
  refine ⟨hchars, htrim, fun around arguments path json hi hload => ?_⟩
  rw [respond_eq_carryOut hi hload, carryOut, htrim, parse_of_accepted hr ha]
  rfl

/-- `S → a` and `S → ␣`, of which a table can only select the first. -/
def withBlank : Configuration where
  grammar := ⟨"g", 0, ["S"], [[⟨0, [.terminal 'a']⟩, ⟨0, [.terminal ' ']⟩]]⟩
  table := ⟨[((0, .terminal 'a'), 0)]⟩
  sets := ⟨[[]], [[]]⟩
  closing := none

def withBlankText : String :=
  "\x7b\"name\":\"g\",\"start\":\"S\",\"rules\":\x7b\"S\":[[\"a\"],[\" \"]]\x7d," ++
    "\"table\":\x7b\"S\":\x7b\"a\":\"a\"\x7d\x7d\x7d"

/-- Every file holds it. -/
def withBlankFiles : Surroundings := ⟨fun _ => .ok withBlankText.toUTF8, [], 0⟩

/-- A blank is a terminal of the grammar, and `a` is accepted as it is. -/
theorem a_grammar_with_a_blank_accepts_a :
    load withBlankFiles (some "g.json") = .ok withBlank ∧
      .terminal ' ' ∈ withBlank.grammar.terminals ∧
      ∃ r, (Parser.ofConfiguration withBlank).run "a" = some r ∧ r.isAccepted = true ∧
        Text.trim "a" = "a" ∧
        respond withBlankFiles ["-g", "g.json", "parse", "--json", "a"] =
          ⟨0, acceptedText withBlank "a" r true, ""⟩ := by
  have htext : Configuration.ofText withBlankText = .ok withBlank := by cbv
  have hload : load withBlankFiles (some "g.json") = .ok withBlank := by
    rw [load, mapError_eq_ok_iff, withBlankFiles, Configuration.ofFile_toUTF8, htext]
  have hi : readArguments ["-g", "g.json", "parse", "--json", "a"] =
      .ok ⟨some "g.json", .parse "a" true⟩ := by rfl
  have haccepted : (Parser.ofConfiguration withBlank).recognizes "a" = true := by cbv
  obtain ⟨r, hr, ha⟩ := (Option.any_eq_true _ _).mp haccepted
  obtain ⟨_, htrim, hrespond⟩ := trimming_changes_no_accepted_sentence (loaded_of_load hload) hr ha
  exact ⟨hload, by decide, r, hr, ha, htrim, hrespond _ _ _ _ hi hload⟩

end CommandLine

end TopDown
