-- What the table shows of an expansion. Its columns are those of the terminals and the end mark. If
-- what was ahead has a column, one cell gets brackets and nothing else changes; if not, the table
-- is shown as it was. A table can have entries under characters that no right-hand side has, but a
-- sentence with such a character is not accepted.
import TopDown.Display.Trace
import TopDown.Proofs.Trimming
import TopDown.Proofs.Walking

namespace TopDown

/-! ## Places -/

namespace Grid

/-- What stands in a row and a column. -/
def at? (rows : List (List String)) (i j : Nat) : Option String := rows[i]?.bind (·[j]?)

/-- The rows differ in one place alone, below the first row and behind the first column. There the
text gets brackets. -/
structure Brackets (plain marked : List (List String)) (row column : Nat) (entry : String) :
    Prop where
  row_pos : 0 < row
  column_pos : 0 < column
  plain_eq : at? plain row column = some entry
  marked_eq : at? marked row column = some ("[" ++ entry ++ "]")
  ne_iff : ∀ i j, at? marked i j ≠ at? plain i j ↔ i = row ∧ j = column

theorem bracketed_ne (entry : String) : "[" ++ entry ++ "]" ≠ entry := by
  intro h
  have hlen := congrArg String.length h
  simp only [String.length_append] at hlen
  have hbracket : ("[" : String).length = 1 := rfl
  omega

end Grid

namespace ParsingTable

variable (t : ParsingTable) (g : Grammar)

theorem at?_rows_head (highlight : Option Cell) (j : Nat) :
    Grid.at? (t.rows g highlight) 0 j = ("" :: g.terminals.map g.spell)[j]? := rfl

theorem at?_rows_succ (highlight : Option Cell) (nt j : Nat) :
    Grid.at? (t.rows g highlight) (nt + 1) j =
      if nt < g.names.length then
        (g.nameOf nt :: g.terminals.map fun x => t.cellText g highlight (nt, x))[j]?
      else none := by
  unfold Grid.at? rows Grammar.ids
  rw [List.getElem?_cons_succ, List.getElem?_map]
  split
  · next hlt => rw [List.getElem?_range hlt]; rfl
  · next hge => rw [List.getElem?_eq_none (by simpa using hge)]; rfl

/-- Below the first row and behind the first column are the cells. -/
theorem at?_rows_cell (highlight : Option Cell) {nt : Nat} (hnt : nt < g.names.length) (j : Nat) :
    Grid.at? (t.rows g highlight) (nt + 1) (j + 1) =
      g.terminals[j]?.map fun x => t.cellText g highlight (nt, x) := by
  rw [at?_rows_succ, if_pos hnt, List.getElem?_cons_succ, List.getElem?_map]

theorem cellText_of_ne {cell other : Cell} (h : cell ≠ other) :
    t.cellText g (some cell) other = t.cellText g none other := by
  simp [cellText, h]

theorem cellText_self (cell : Cell) :
    t.cellText g (some cell) cell = "[" ++ t.cellText g none cell ++ "]" := by
  simp [cellText]

variable {t g}

/-- A cell that has no place in the table leaves it as it is. -/
theorem rows_eq_of_not_mem {cell : Cell} (h : cell.2 ∉ g.terminals) :
    t.rows g (some cell) = t.rows g none := by
  unfold rows
  congr 1
  apply List.map_congr_left
  intro nt _
  congr 1
  apply List.map_congr_left
  intro x hx
  refine t.cellText_of_ne g ?_
  rintro rfl
  exact h hx

/-- Where a highlighted cell makes a difference is in its row and in its column. -/
theorem eq_of_at?_rows_ne {cell : Cell} {i j : Nat}
    (h : Grid.at? (t.rows g (some cell)) i j ≠ Grid.at? (t.rows g none) i j) :
    i = cell.1 + 1 ∧ ∃ m, j = m + 1 ∧ g.terminals[m]? = some cell.2 := by
  rcases i with _ | nt
  · exact absurd rfl h
  by_cases hnt : nt < g.names.length
  · rcases j with _ | m
    · rw [at?_rows_succ, at?_rows_succ, if_pos hnt, if_pos hnt] at h
      exact absurd rfl h
    · rw [at?_rows_cell t g _ hnt, at?_rows_cell t g _ hnt] at h
      cases hm : g.terminals[m]? with
      | none => simp [hm] at h
      | some x =>
        by_cases hcell : cell = (nt, x)
        · subst hcell
          exact ⟨rfl, m, rfl, hm⟩
        · rw [hm, Option.map_some, Option.map_some, t.cellText_of_ne g hcell] at h
          exact absurd rfl h
  · rw [at?_rows_succ, at?_rows_succ, if_neg hnt, if_neg hnt] at h
    exact absurd rfl h

/-- A cell that has a place in the table is all that changes. -/
theorem brackets_rows {nt m : Nat} {x : Symbol} (hnt : nt < g.names.length)
    (hm : g.terminals[m]? = some x) :
    Grid.Brackets (t.rows g none) (t.rows g (some (nt, x))) (nt + 1) (m + 1)
      (t.cellText g none (nt, x)) where
  row_pos := Nat.succ_pos nt
  column_pos := Nat.succ_pos m
  plain_eq := by rw [at?_rows_cell t g _ hnt, hm, Option.map_some]
  marked_eq := by rw [at?_rows_cell t g _ hnt, hm, Option.map_some, cellText_self]
  ne_iff i j := by
    constructor
    · intro hne
      obtain ⟨hi, l, rfl, hl⟩ := eq_of_at?_rows_ne hne
      have hlt := (List.getElem?_eq_some_iff.mp hl).1
      exact ⟨hi, congrArg Nat.succ
        ((List.getElem?_inj hlt g.nodup_terminals).mp (hl.trans hm.symm))⟩
    · rintro ⟨rfl, rfl⟩
      rw [at?_rows_cell t g _ hnt, at?_rows_cell t g _ hnt, hm, Option.map_some, Option.map_some,
        cellText_self]
      exact fun h => Grid.bracketed_ne _ (Option.some.inj h)

end ParsingTable

/-! ## Expansions -/

namespace Parser

variable {p : Parser} {w : String} {rs : List Record} {t : State} {r : Record} {nt k : Nat}
  {x : Symbol}

/-- The cell of an expansion holds what the expansion is described as. -/
theorem Reaches.cellText_eq (h : p.Reaches (p.start w) rs t) (hr : r ∈ rs)
    (hx : r.action = .expand nt x k) :
    p.table.cellText p.grammar none (nt, x) = r.action.describe p.grammar := by
  obtain ⟨_, _, _, _, hchoice⟩ := h.exists_ahead hr hx
  obtain ⟨hlookup, q, hq⟩ := choice?_eq_some_iff.mp hchoice
  simp [hx, ParsingTable.cellText, ParsingTable.production?, Action.describe, hlookup, hq]

/-- In a run that accepts, what is ahead of an expansion is a symbol of the grammar. -/
theorem Reaches.mem_terminals (hg : p.grammar.NoEndMark) (h : p.Reaches (p.start w) rs t)
    (ht : t.status = .accepted) (hr : r ∈ rs) (hx : r.action = .expand nt x k) :
    x ∈ p.grammar.terminals := by
  have hfin : t.isFinished = true := by simp [State.isFinished, ht, Status.isFinished]
  obtain ⟨report, hrun⟩ := h.exists_run hfin
  have haccepted : report.status = .accepted := ((h.of_run hrun).1 hfin).2.1.symm.trans ht
  obtain ⟨u, v, hw, rfl, _⟩ := h.exists_ahead hr hx
  rw [Grammar.mem_terminals_iff]
  cases v with
  | nil => exact .inr rfl
  | cons ch v =>
    have hmem : ch ∈ w.toList := by simp [hw]
    obtain ⟨_, _, q, hq, hch⟩ := exists_selected_of_run hg hrun haccepted hmem
    simp only [ParsingTable.production?, Option.bind_eq_bind, Option.bind_eq_some_iff] at hq
    obtain ⟨_, _, hq⟩ := hq
    exact .inl ⟨rfl, q, Grammar.mem_allProductions_iff.mpr
      ⟨_, Grammar.mem_productions_of_production? hq⟩, hch⟩

end Parser

namespace Configuration

/-- In the table that is shown with a step, all that is new are brackets around the text of the
expansion. It stands in the row of its non-terminal. -/
structure Highlights (c : Configuration) (r : Record) (nt column : Nat) : Prop where
  row_head : Grid.at? (c.table.rows c.grammar none) (nt + 1) 0 = c.grammar.nameOf? nt
  brackets : Grid.Brackets (c.table.rows c.grammar none) (c.table.rows c.grammar r.action.cell?)
    (nt + 1) column (r.action.describe c.grammar)

/-- An expansion of a run is highlighted if what was ahead is a terminal of the grammar or the end
mark, in the column of that symbol. If it is another character, the table is shown as it was. In a
run that accepts, every expansion is highlighted. -/
theorem an_expansion_is_highlighted_if_there_is_a_column {c : Configuration} (hc : c.Loaded)
    {w : String} {rs : List Record} {t : State}
    (h : (Parser.ofConfiguration c).Reaches ((Parser.ofConfiguration c).start w) rs t) {r : Record}
    (hr : r ∈ rs) {nt k : Nat} {x : Symbol} (hx : r.action = .expand nt x k) :
    (x ∈ c.grammar.terminals → ∃ column, c.Highlights r nt column ∧
      Grid.at? (c.table.rows c.grammar none) 0 column = some (c.grammar.spell x)) ∧
    (x ∉ c.grammar.terminals →
      c.table.rows c.grammar r.action.cell? = c.table.rows c.grammar none) ∧
    (t.status = .accepted → ∃ column, c.Highlights r nt column) := by
  have hwell := hc.legible.wellFormed
  have hcell : r.action.cell? = some (nt, x) := by rw [hx]; rfl
  obtain ⟨_, _, _, _, hchoice⟩ := h.exists_ahead hr hx
  have hnt : nt < c.grammar.names.length :=
    (hwell.hasEntry _ (Keyed.mem_of_get? (Parser.choice?_eq_some_iff.mp hchoice).1)).registered
  have hcolumn : x ∈ c.grammar.terminals → ∃ column, c.Highlights r nt column ∧
      Grid.at? (c.table.rows c.grammar none) 0 column = some (c.grammar.spell x) := by
    intro hmem
    obtain ⟨m, hm⟩ := List.mem_iff_getElem?.mp hmem
    have htext : c.table.cellText c.grammar none (nt, x) = r.action.describe c.grammar :=
      h.cellText_eq hr hx
    have hbrackets := ParsingTable.brackets_rows (t := c.table) hnt hm
    rw [← hcell, htext] at hbrackets
    refine ⟨m + 1, ⟨?_, hbrackets⟩, ?_⟩
    · rw [ParsingTable.at?_rows_succ, if_pos hnt, Grammar.nameOf?_eq hnt, List.getElem?_cons_zero]
    · rw [ParsingTable.at?_rows_head, List.getElem?_cons_succ, List.getElem?_map, hm,
        Option.map_some]
  refine ⟨hcolumn, fun hnot => ?_, fun ht => ?_⟩
  · rw [hcell]
    exact ParsingTable.rows_eq_of_not_mem hnot
  · obtain ⟨column, hhighlights, _⟩ := hcolumn (h.mem_terminals hwell.grammar.noEndMark ht hr hx)
    exact ⟨column, hhighlights⟩

/-- `S → a`, which the table gives under `a` and under `b`. -/
def strayed : Configuration where
  grammar := ⟨"g", 0, ["S"], [[⟨0, [.terminal 'a']⟩]]⟩
  table := ⟨[((0, .terminal 'a'), 0), ((0, .terminal 'b'), 0)]⟩
  sets := ⟨[[]], [[]]⟩
  closing := none

def strayedText : String :=
  "\x7b\"name\":\"g\",\"start\":\"S\",\"rules\":\x7b\"S\":[[\"a\"]]\x7d," ++
    "\"table\":\x7b\"S\":\x7b\"a\":\"a\",\"b\":\"a\"\x7d\x7d\x7d"

theorem loaded_strayed : strayed.Loaded := .inl ⟨strayedText, by cbv⟩

/-- The first step on a sentence of one character. -/
def firstRecord (ch : Char) : Record :=
  ⟨1, [.nonTerminal 0, .endMark], [.terminal ch, .endMark], .expand 0 (.terminal ch) 0⟩

/-- On `b` the first step expands `S`. -/
theorem strayed_expands_under_b :
    (Parser.ofConfiguration strayed).Reaches ((Parser.ofConfiguration strayed).start "b")
      [firstRecord 'b'] ⟨[.terminal 'a', .endMark], [.terminal 'b', .endMark], 0, 1, .running⟩ :=
  .step (.refl _) rfl

/-- So not every expansion is highlighted: this one is under a character that has no column. -/
theorem not_every_expansion_is_highlighted :
    ¬ ∀ (c : Configuration) (w : String) (rs : List Record) (t : State) (r : Record) (nt k : Nat)
      (x : Symbol), c.Loaded →
      (Parser.ofConfiguration c).Reaches ((Parser.ofConfiguration c).start w) rs t → r ∈ rs →
      r.action = .expand nt x k → ∃ column, c.Highlights r nt column := by
  intro h
  obtain ⟨column, _, hbrackets⟩ := h strayed "b" _ _ (firstRecord 'b') 0 0 (.terminal 'b')
    loaded_strayed strayed_expands_under_b (List.mem_singleton.mpr rfl) rfl
  have hsame : strayed.table.rows strayed.grammar (firstRecord 'b').action.cell? =
      strayed.table.rows strayed.grammar none := ParsingTable.rows_eq_of_not_mem (by decide)
  refine (hbrackets.ne_iff 1 column).mpr ⟨rfl, rfl⟩ ?_
  rw [hsame]

/-- The expansion under `a` shows in the column of `a`, and its run accepts. The one under `b` does
not show. -/
theorem strayed_highlights_a_and_not_b :
    strayed.Loaded ∧
      (∃ rs t, (Parser.ofConfiguration strayed).Reaches
          ((Parser.ofConfiguration strayed).start "a") rs t ∧
        firstRecord 'a' ∈ rs ∧ t.status = .accepted ∧ .terminal 'a' ∈ strayed.grammar.terminals ∧
        ∃ column, strayed.Highlights (firstRecord 'a') 0 column ∧
          Grid.at? (strayed.table.rows strayed.grammar none) 0 column = some "a") ∧
      (∃ rs t, (Parser.ofConfiguration strayed).Reaches
          ((Parser.ofConfiguration strayed).start "b") rs t ∧
        firstRecord 'b' ∈ rs ∧ .terminal 'b' ∉ strayed.grammar.terminals ∧
        strayed.table.rows strayed.grammar (firstRecord 'b').action.cell? =
          [["", "a", "$"], ["S", "S → a", ""]]) := by
  have hrun : ((Parser.ofConfiguration strayed).run "a").any
      (fun r => decide (r.status = .accepted ∧ firstRecord 'a' ∈ r.trace)) = true := by cbv
  obtain ⟨report, hreport, hreported⟩ := (Option.any_eq_true _ _).mp hrun
  obtain ⟨haccepted, hmem⟩ := of_decide_eq_true hreported
  obtain ⟨t, hreach, _, hstatus, _⟩ := Parser.reaches_of_runWithin hreport
  have ht : t.status = .accepted := hstatus.trans haccepted
  have hexpand : (firstRecord 'a').action = .expand 0 (.terminal 'a') 0 := rfl
  obtain ⟨hshown, _, _⟩ := an_expansion_is_highlighted_if_there_is_a_column loaded_strayed hreach
    hmem hexpand
  obtain ⟨_, hhidden, _⟩ := an_expansion_is_highlighted_if_there_is_a_column loaded_strayed
    strayed_expands_under_b (List.mem_singleton.mpr rfl) rfl
  refine ⟨loaded_strayed, ⟨_, t, hreach, hmem, ht, by decide, hshown (by decide)⟩,
    _, _, strayed_expands_under_b, List.mem_singleton.mpr rfl, by decide,
    (hhidden (by decide)).trans ?_⟩
  decide

end Configuration

end TopDown
