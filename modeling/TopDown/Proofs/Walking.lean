-- A walk shows how the run begins. Each line that does not ask to stop pays for one step, so the
-- walk takes as many steps as there are such lines, or as the run has if these are fewer. After the
-- verdict no line is read.
import Mathlib
import TopDown.CommandLine.Outcome
import TopDown.Proofs.BuiltIn.Loaded
import TopDown.Proofs.Divergence
import TopDown.Proofs.InputLines

namespace TopDown

namespace Parser

variable {p : Parser} {w : String}

/-! ## The steps of a run in order -/

theorem steps_of_step {s next : State} {r : Record} (h : p.step s = (next, some r)) :
    r.step = s.steps + 1 ∧ next.steps = s.steps + 1 := by
  unfold step at h
  split at h
  · cases h
  · cases h
    exact ⟨rfl, rfl⟩

/-- Steps as many from the same state are the same steps. -/
theorem Reaches.unique {s t t' : State} {rs rs' : List Record} (h : p.Reaches s rs t)
    (h' : p.Reaches s rs' t') (hlen : rs.length = rs'.length) : rs = rs' ∧ t = t' := by
  induction h generalizing rs' t' with
  | refl =>
    cases h' with
    | refl => exact ⟨rfl, rfl⟩
    | step => simp at hlen
  | step _ hstep ih =>
    cases h' with
    | refl => simp at hlen
    | step hreach' hstep' =>
      obtain ⟨rfl, rfl⟩ := ih hreach' (by simpa using hlen)
      rw [hstep] at hstep'
      cases hstep'
      exact ⟨rfl, rfl⟩

theorem Reaches.take {s t : State} {rs : List Record} (h : p.Reaches s rs t) (n : Nat) :
    ∃ u, p.Reaches s (rs.take n) u := by
  induction h with
  | refl => exact ⟨s, by simpa using Reaches.refl s⟩
  | @step _ next rs r hreach hstep ih =>
    by_cases hn : n ≤ rs.length
    · rwa [List.take_append_of_le_length hn]
    · refine ⟨next, ?_⟩
      rw [List.take_of_length_le (by simp; omega)]
      exact hreach.step hstep

/-- Fewer steps than the run takes are the first of its steps. -/
theorem Reaches.eq_take {s t t' : State} {rs rs' : List Record} (h : p.Reaches s rs t)
    (h' : p.Reaches s rs' t') (hle : rs.length ≤ rs'.length) : rs = rs'.take rs.length := by
  obtain ⟨u, hu⟩ := h'.take rs.length
  exact (h.unique hu (by simpa using hle)).1

/-- There is no verdict before the last step. -/
theorem Reaches.isFinished_after {t : State} {rs : List Record} (h : p.Reaches (p.start w) rs t)
    {n : Nat} (hn : n < rs.length) : (p.after w n).isFinished = false := by
  cases h with
  | refl => simp at hn
  | @step s _ rs r hreach hstep =>
    rw [Bool.eq_false_iff]
    intro hfin
    have hle : n ≤ rs.length := by simpa [Nat.lt_succ_iff] using hn
    have hs := isFinished_after_of_le hle hfin
    rw [after_of_reaches hreach, isFinished_of_step hstep] at hs
    cases hs

/-- Of a run that ends, all of its steps lead to the verdict, and fewer do not. -/
theorem Reaches.of_run {rs : List Record} {t : State} {r : Report}
    (h : p.Reaches (p.start w) rs t) (hrun : p.run w = some r) :
    (t.isFinished = true → rs = r.trace ∧ t.status = r.status ∧ t.steps = r.steps) ∧
      (t.isFinished = false → rs.length < r.trace.length) := by
  obtain ⟨u, hu, hdone, hstatus, hsteps⟩ := reaches_of_runWithin hrun
  have hfin : (p.after w r.trace.length).isFinished = true := by
    rw [after_of_reaches hu, ← hu.isDone_eq, hdone]
  constructor
  · intro ht
    rw [← after_of_reaches h] at ht
    have hle : rs.length ≤ r.trace.length := by
      by_contra hlt
      rw [h.isFinished_after (by omega)] at hfin
      cases hfin
    have hge : r.trace.length ≤ rs.length := by
      by_contra hlt
      rw [hu.isFinished_after (by omega)] at ht
      cases ht
    obtain ⟨hrs, rfl⟩ := h.unique hu (by omega)
    exact ⟨hrs, hstatus, hsteps⟩
  · intro ht
    by_contra hge
    have hlast := isFinished_after_of_le (by omega : r.trace.length ≤ rs.length) hfin
    rw [after_of_reaches h, ht] at hlast
    cases hlast

/-- A run that comes to a verdict ends. -/
theorem Reaches.exists_run {rs : List Record} {t : State} (h : p.Reaches (p.start w) rs t)
    (ht : t.isFinished = true) : ∃ r, p.run w = some r := by
  apply Option.ne_none_iff_exists'.mp
  intro hnone
  have hfin := run_eq_none_iff.mp hnone rs.length
  rw [after_of_reaches h, ht] at hfin
  cases hfin

end Parser

namespace Walk

variable {p : Parser} {w : String}

/-! ## What a walk should show -/

/-- The lines before the first one that asks to stop. -/
def goingOn (lines : List String) : List String := lines.takeWhile fun line => !stops line

/-- The rows of the table with brackets around what stands under one cell. A header has the
terminals and the end mark. Below it each non-terminal has its name and, for each column, the
production that is entered there, if there is one. -/
def markedRows (t : ParsingTable) (g : Grammar) (nt : Nat) (lookahead : Symbol) :
    List (List String) :=
  ("" :: g.terminals.map g.spell) ::
    (List.range g.names.length).map fun row =>
      g.nameOf row :: g.terminals.map fun column =>
        let entry := ((t.production? g row column).map g.write).getD ""
        if row = nt ∧ column = lookahead then "[" ++ entry ++ "]" else entry

/-- The step with the number `i`: a prompt, the number, the three texts of its record, and after an
expansion the table with the cell that it used in brackets. -/
def stepShown (p : Parser) (i : Nat) (r : Record) : String :=
  prompt ++ "#" ++ Grid.pad 4 (toString i) ++ " " ++ r.stackText p.grammar ++ " │ " ++
    r.inputText p.grammar ++ " │ " ++ r.action.describe p.grammar ++ "\n" ++
    match r.action with
    | .expand nt lookahead _ => Grid.render (markedRows p.table p.grammar nt lookahead) ++ "\n"
    | .consume _ | .reject _ => ""

/-- The steps that follow on the first `i`. -/
def stepsShown (p : Parser) : Nat → List Record → String
  | _, [] => ""
  | i, r :: rs => stepShown p (i + 1) r ++ stepsShown p (i + 1) rs

theorem stepsShown_append (p : Parser) (i : Nat) (rs rs' : List Record) :
    stepsShown p i (rs ++ rs') = stepsShown p i rs ++ stepsShown p (i + rs.length) rs' := by
  induction rs generalizing i with
  | nil => simp [stepsShown]
  | cons r rs ih =>
    rw [List.cons_append, stepsShown, stepsShown, ih, String.append_assoc, List.length_cons,
      Nat.add_right_comm, ← Nat.add_assoc]

/-- The end of a walk with `k` lines to go on: the verdict of a run that has no more steps than
that, otherwise how far the walk came. -/
def ending (run : Option Report) (k : Nat) : String :=
  match run with
  | some r =>
    if r.steps ≤ k then r.verdict ++ "\n"
    else prompt ++ "Stopped after " ++ toString k ++ " iterations.\n"
  | none => prompt ++ "Stopped after " ++ toString k ++ " iterations.\n"

/-! ## The loop -/

/-- The table is printed by its rows, with the highlighted cell in brackets. -/
theorem text_eq_render (t : ParsingTable) (g : Grammar) (nt : Nat) (lookahead : Symbol) :
    t.text g (some (nt, lookahead)) = Grid.render (markedRows t g nt lookahead) := by
  have hcell : ∀ row column, t.cellText g (some (nt, lookahead)) (row, column) =
      let entry := ((t.production? g row column).map g.write).getD ""
      if row = nt ∧ column = lookahead then "[" ++ entry ++ "]" else entry := by
    intro row column
    have hsame : some (nt, lookahead) = some (row, column) ↔ row = nt ∧ column = lookahead := by
      rw [Option.some.injEq, Prod.mk.injEq]
      exact and_congr eq_comm eq_comm
    simp only [ParsingTable.cellText, hsame]
  simp only [ParsingTable.text, ParsingTable.rows, Grammar.ids, hcell, markedRows]

theorem prompt_append_recordText (p : Parser) (r : Record) :
    prompt ++ recordText p r = stepShown p r.step r := by
  unfold recordText stepShown
  cases h : r.action with
  | expand => simp [Record.row, Action.cell?, h, text_eq_render, String.append_assoc]
  | consume | reject => simp [Record.row, Action.cell?, h, String.append_assoc]

theorem onward_finished {s : State} {lines : List (Option String)} (h : s.isFinished = true) :
    onward p s lines = ("", some s) := by
  unfold onward
  rw [if_pos h]

theorem onward_cons {s next : State} {r : Record} {line : String} {lines : List (Option String)}
    (h : s.isFinished = false) (hline : stops line = false) (hs : p.step s = (next, some r)) :
    onward p s (some line :: lines) =
      (stepShown p (s.steps + 1) r ++ (onward p next lines).1, (onward p next lines).2) := by
  have hshown := prompt_append_recordText p r
  rw [(Parser.steps_of_step hs).1] at hshown
  rw [← hshown]
  simp [onward, h, hline, turn, hs]

/-- A walk that is not over asks for a line and stays where it is if there is none, or if it says
so. -/
theorem onward_stop {s : State} {lines : List String} (h : s.isFinished = false)
    (hlines : goingOn lines = []) : onward p s (lines.map some) = (prompt, some s) := by
  cases lines with
  | nil => simp [onward, h]
  | cons line lines =>
    have hstop : stops line = true := by
      by_contra hgo
      simp [goingOn, hgo] at hlines
    simp [onward, h, hstop]

/-- Lines to go on are spent on steps, one on each, until the verdict. The induction is on the
lines. -/
theorem onward_append {s : State} {lines : List String} (h : ∀ line ∈ lines, stops line = false) :
    ∃ rs t, p.Reaches s rs t ∧ rs.length ≤ lines.length ∧
      (t.isFinished = false → rs.length = lines.length) ∧
      ∀ rest, onward p s (lines.map some ++ rest) =
        (stepsShown p s.steps rs ++ (onward p t rest).1, (onward p t rest).2) := by
  induction lines generalizing s with
  | nil => exact ⟨[], s, .refl s, le_rfl, fun _ => rfl, fun rest => by simp [stepsShown]⟩
  | cons line lines ih =>
    cases hfin : s.isFinished with
    | true =>
      refine ⟨[], s, .refl s, by simp, fun hs => ?_, fun rest => ?_⟩
      · rw [hfin] at hs
        cases hs
      · rw [onward_finished hfin, onward_finished hfin]
        rfl
    | false =>
      obtain ⟨next, r, hs⟩ := Parser.exists_record (p := p) hfin
      obtain ⟨rs, t, hreach, hle, hlen, hrest⟩ :=
        ih (s := next) fun line' hline' => h line' (List.mem_cons_of_mem line hline')
      refine ⟨r :: rs, t, hreach.head hs, by simpa using hle, fun ht => ?_, fun rest => ?_⟩
      · rw [List.length_cons, List.length_cons, hlen ht]
      · rw [List.map_cons, List.cons_append, onward_cons hfin (h line List.mem_cons_self) hs,
          hrest rest, stepsShown, (Parser.steps_of_step hs).2, String.append_assoc]

/-! ## The whole walk -/

theorem going_on {lines : List String} : ∀ line ∈ goingOn lines, stops line = false := by
  intro line hline
  simpa using List.mem_takeWhile_imp hline

theorem goingOn_dropWhile (lines : List String) :
    goingOn (lines.dropWhile fun line => !stops line) = [] := by
  unfold goingOn
  rw [List.takeWhile_eq_nil_iff]
  intro hne
  exact List.dropWhile_get_zero_not _ _ hne

/-- The records of the steps that a walk with `k` lines to go on takes: the first `k` of a run that
ends, and `k` of one that does not. -/
def Begins (p : Parser) (w : String) (k : Nat) (rs : List Record) : Prop :=
  (∀ r, p.run w = some r → rs = r.trace.take k ∧ rs.length = min k r.steps) ∧
    (p.run w = none → rs.length = k)

theorem steps_of_run {r : Report} (h : p.run w = some r) : r.steps = r.trace.length := by
  obtain ⟨t, hreach, _, _, hsteps⟩ := Parser.reaches_of_runWithin h
  rw [← hsteps, hreach.regular.steps_eq]

/-- Of at most `n` lines to go on the first ones are the first of all lines. -/
theorem take_goingOn {lines : List String} {n : Nat} (h : n ≤ (goingOn lines).length) :
    lines.take n = (goingOn lines).take n := by
  obtain ⟨rest, hrest⟩ : goingOn lines <+: lines := List.takeWhile_prefix _
  conv_lhs => rw [← hrest]
  exact List.take_append_of_le_length h

section

variable {rs : List Record} {t : State} {k : Nat} (hreach : p.Reaches (p.start w) rs t)
  (hle : rs.length ≤ k) (hopen : t.isFinished = false → rs.length = k)
include hreach hle hopen

/-- One step for each line until the verdict is how the run begins. -/
theorem begins_of_reaches : Begins p w k rs := by
  refine ⟨fun r hrun => ?_, fun hnone => ?_⟩
  · have hsteps := steps_of_run hrun
    cases hfin : t.isFinished with
    | true =>
      obtain ⟨rfl, _⟩ := (hreach.of_run hrun).1 hfin
      exact ⟨(List.take_of_length_le hle).symm, by omega⟩
    | false =>
      have hk := hopen hfin
      have hlt := (hreach.of_run hrun).2 hfin
      obtain ⟨u, hu, _⟩ := Parser.reaches_of_runWithin hrun
      exact ⟨hk ▸ hreach.eq_take hu hlt.le, by omega⟩
  · cases hfin : t.isFinished with
    | true =>
      obtain ⟨r, hrun⟩ := hreach.exists_run hfin
      rw [hrun] at hnone
      cases hnone
    | false => exact hopen hfin

/-- The verdict is that of the run, and without one there is a last prompt. -/
theorem closing_eq_ending :
    (if t.isFinished then "" else prompt) ++ closing t = ending (p.run w) k := by
  have hsteps := hreach.regular.steps_eq
  cases hfin : t.isFinished with
  | true =>
    obtain ⟨r, hrun⟩ := hreach.exists_run hfin
    obtain ⟨rfl, hstatus, hcount⟩ := (hreach.of_run hrun).1 hfin
    have hk : r.steps ≤ k := by rwa [steps_of_run hrun]
    rw [closing, if_pos hfin, hrun, hstatus, hcount]
    simp [ending, hk, Report.verdict]
  | false =>
    rw [closing, hfin, hsteps, hopen hfin]
    cases hrun : p.run w with
    | none => simp [ending, String.append_assoc]
    | some r =>
      have hlt := (hreach.of_run hrun).2 hfin
      have hk := hopen hfin
      have hmore : ¬ r.steps ≤ k := by
        rw [steps_of_run hrun]
        omega
      simp [ending, hmore, String.append_assoc]

end

/-- A walk over given lines shows the first steps and how far it came. -/
theorem onward_start (p : Parser) (w : String) (lines : List String) :
    ∃ rs t shown, p.Reaches (p.start w) rs t ∧ Begins p w (goingOn lines).length rs ∧
      onward p (p.start w) (lines.map some) = (shown, some t) ∧
      shown ++ closing t = stepsShown p 0 rs ++ ending (p.run w) (goingOn lines).length := by
  obtain ⟨rs, t, hreach, hle, hopen, hrest⟩ :=
    onward_append (p := p) (s := p.start w) (@going_on lines)
  have hlines : lines.map some = (goingOn lines).map some ++
      (lines.dropWhile fun line => !stops line).map some := by
    rw [← List.map_append, goingOn, List.takeWhile_append_dropWhile]
  have hstays : onward p t ((lines.dropWhile fun line => !stops line).map some) =
      (if t.isFinished then "" else prompt, some t) := by
    cases hfin : t.isFinished with
    | true => exact onward_finished hfin
    | false => exact onward_stop hfin (goingOn_dropWhile lines)
  refine ⟨rs, t, stepsShown p 0 rs ++ if t.isFinished then "" else prompt, hreach,
    begins_of_reaches hreach hle hopen, ?_, ?_⟩
  · rw [hlines, hrest, hstays]
    rfl
  · rw [String.append_assoc, closing_eq_ending hreach hle hopen]

/-- With a line to go on for every step of the run, what comes after them does not count. -/
theorem onward_enough {r : Report} (hrun : p.run w = some r) {lines : List String}
    (h : ∀ line ∈ lines, stops line = false) (hlen : r.steps = lines.length) :
    ∃ t, ∀ rest, onward p (p.start w) (lines.map some ++ rest) =
      (stepsShown p 0 r.trace, some t) := by
  obtain ⟨rs, t, hreach, _, hcount, hrest⟩ := onward_append (p := p) (s := p.start w) h
  have hfin : t.isFinished = true := by
    by_contra hnot
    rw [Bool.not_eq_true] at hnot
    have hlt := (hreach.of_run hrun).2 hnot
    rw [hcount hnot, ← hlen, steps_of_run hrun] at hlt
    exact lt_irrefl _ hlt
  obtain ⟨rfl, _⟩ := (hreach.of_run hrun).1 hfin
  refine ⟨t, fun rest => ?_⟩
  rw [hrest, onward_finished hfin, String.append_empty]
  rfl

end Walk

namespace CommandLine

theorem respond_step {around : Surroundings} {arguments : List String} {i : Invocation}
    {sentence : String} {c : Configuration} (hi : readArguments arguments = .ok i)
    (hs : i.command = .step sentence) (hc : load around i.grammar = .ok c) :
    respond around arguments = step c (Text.trim sentence) (Lines.ofBytes around.stdin) := by
  rw [respond_eq_carryOut hi hc, hs, carryOut]

theorem step_of_onward {c : Configuration} {sentence shown : String}
    {lines : List (Option String)} {t : State}
    (h : Walk.onward (.ofConfiguration c) (Parser.start (.ofConfiguration c) sentence) lines =
      (shown, some t)) :
    step c sentence lines =
      .success (Walk.opening (.ofConfiguration c) ++ shown ++ Walk.closing t) := by
  unfold step
  simp [h]

/-- A walk takes a step for each line before the first one that asks to stop, as long as there is no
verdict. It shows these steps with the records that the run on the trimmed sentence has of them, and
ends with the verdict of the run if it came so far, otherwise with the number of steps. In either
case the program ends well. Where it comes to the verdict, lines that follow on those it needs are
not looked at, and need not be text. -/
theorem a_walk_shows_how_the_run_begins {around : Surroundings} {arguments : List String}
    {i : Invocation} {sentence text : String} {c : Configuration}
    (hi : readArguments arguments = .ok i) (hs : i.command = .step sentence)
    (hc : load around i.grammar = .ok c) (ht : Lines.decode around.stdin = some text) :
    let p := Parser.ofConfiguration c
    let w := Text.trim sentence
    let k := (Walk.goingOn (Lines.ofText text)).length
    (∃ rs t, p.Reaches (p.start w) rs t ∧ Walk.Begins p w k rs ∧
      respond around arguments =
        ⟨0, Walk.opening p ++ Walk.stepsShown p 0 rs ++ Walk.ending (p.run w) k, ""⟩) ∧
    ∀ r bytes, p.run w = some r → r.steps ≤ k →
      (Lines.ofBytes bytes).take r.steps = (Lines.ofBytes around.stdin).take r.steps →
      respond { around with stdin := bytes } arguments = respond around arguments := by
  intro p w k
  have hlines := Lines.ofBytes_of_decode ht
  rw [respond_step hi hs hc]
  constructor
  · obtain ⟨rs, t, shown, hreach, hbegins, honward, hshown⟩ :=
      Walk.onward_start p w (Lines.ofText text)
    refine ⟨rs, t, hreach, hbegins, ?_⟩
    rw [hlines, step_of_onward honward, String.append_assoc, hshown, ← String.append_assoc]
    rfl
  · intro r bytes hrun hk hbytes
    have hstdin : Lines.ofBytes around.stdin =
        ((Lines.ofText text).take r.steps).map some ++
          (Lines.ofBytes around.stdin).drop r.steps := by
      rw [List.map_take, ← hlines, List.take_append_drop]
    have hmore : Lines.ofBytes bytes =
        ((Lines.ofText text).take r.steps).map some ++ (Lines.ofBytes bytes).drop r.steps := by
      rw [List.map_take, ← hlines, ← hbytes, List.take_append_drop]
    have htaken := Walk.take_goingOn hk
    have hgo : ∀ line ∈ (Lines.ofText text).take r.steps, Walk.stops line = false := by
      intro line hline
      exact Walk.going_on line (List.mem_of_mem_take (htaken ▸ hline))
    obtain ⟨t, henough⟩ := Walk.onward_enough hrun hgo
      (by rw [htaken, List.length_take, Nat.min_eq_left hk])
    have hc' : load { around with stdin := bytes } i.grammar = .ok c := by
      rw [← hc]
      cases i.grammar <;> rfl
    rw [respond_step hi hs hc']
    rw [hstdin, hmore, step_of_onward (henough _), step_of_onward (henough _)]

/-- Seven empty lines to read, and no files. -/
def sevenLines : Surroundings := ⟨fun _ => .error .notFound, List.replicate 7 10, 0⟩

/-- What is shown of the first two steps on `ccc`, of which the first is an expansion. -/
def twoStepsOnCcc : String :=
  "> #1    $ S │ c c c $ │ S → c C c\n" ++
  "  │ a         │ b         │ c           │ d       │ $\n" ++
  "──┼───────────┼───────────┼─────────────┼─────────┼──\n" ++
  "S │ S → a A a │ S → b B b │ [S → c C c] │         │\n" ++
  "A │ A → a A   │           │ A → c D B   │         │\n" ++
  "B │           │ B → b B   │ B → c C D   │         │\n" ++
  "C │           │           │ C → D c     │ C → D c │\n" ++
  "D │ D → ε     │ D → ε     │ D → ε       │ D → d D │\n" ++
  "> #2    $ c C c │ c c c $ │ consume c\n"

/-- On `ccc` seven lines come to the verdict, and a byte after them that is no text does no harm. -/
theorem seven_lines_walk_through_ccc :
    ∃ r, (Parser.ofConfiguration BuiltIn.loaded).run "ccc" = some r ∧ r.steps = 7 ∧
      respond sevenLines ["step", " ccc "] =
        ⟨0, Walk.opening (.ofConfiguration BuiltIn.loaded) ++ (twoStepsOnCcc ++
          Walk.stepsShown (.ofConfiguration BuiltIn.loaded) 2 (r.trace.drop 2)) ++
          "Sentence accepted in 7 iterations.\n", ""⟩ ∧
      respond { sevenLines with stdin := List.replicate 7 10 ++ [255] } ["step", " ccc "] =
        respond sevenLines ["step", " ccc "] := by
  have hi : readArguments ["step", " ccc "] = .ok ⟨none, .step " ccc "⟩ := by rfl
  have ht : Lines.decode sevenLines.stdin = some "\n\n\n\n\n\n\n" := by decide
  have hc : load sevenLines none = .ok BuiltIn.loaded := by
    unfold load
    rw [BuiltIn.configuration_eq]
    rfl
  obtain ⟨⟨rs, t, _, hbegins, hrespond⟩, hmore⟩ := a_walk_shows_how_the_run_begins hi rfl hc ht
  have hw : Text.trim " ccc " = "ccc" := by decide
  have hk : (Walk.goingOn (Lines.ofText "\n\n\n\n\n\n\n")).length = 7 := by decide
  have hccc : ((Parser.ofConfiguration BuiltIn.loaded).run "ccc").any (fun r => decide
      (r.steps = 7 ∧ r.verdict = "Sentence accepted in 7 iterations." ∧
        Walk.stepsShown (.ofConfiguration BuiltIn.loaded) 0 (r.trace.take 2) =
          twoStepsOnCcc)) = true := by decide +kernel
  obtain ⟨r, hrun, hshown⟩ := (Option.any_eq_true _ _).mp hccc
  obtain ⟨hr, hverdict, htwo⟩ := of_decide_eq_true hshown
  have hlen : (r.trace.take 2).length = 2 := by
    rw [List.length_take, ← Walk.steps_of_run hrun, hr]
    rfl
  rw [hw, hk] at hrespond hmore hbegins
  obtain ⟨hrs, _⟩ := hbegins.1 r hrun
  rw [hrun, hrs, List.take_of_length_le (by rw [← Walk.steps_of_run hrun, hr]),
    ← List.take_append_drop 2 r.trace, Walk.stepsShown_append, htwo, hlen] at hrespond
  refine ⟨r, hrun, hr, hrespond.trans ?_, hmore r _ hrun hr.le ?_⟩
  · simp [Walk.ending, hr, hverdict]
  · rw [hr]
    decide

end CommandLine

end TopDown
