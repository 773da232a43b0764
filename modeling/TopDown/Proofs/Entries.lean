-- The entries of a table that loads. No two cells of a document have one place: a row is told by its
-- name, and a lookahead by its spelling. So each cell has an entry of its own, and there are no others.
import Mathlib
import TopDown.Proofs.Loadable

namespace TopDown

open Json (Value)

/-! ## Lookaheads -/

theorem Symbol.ofFirst_of_toList {s : String} {c : Char} (h : s.toList = [c]) :
    Symbol.ofFirst s = .terminal c := by
  rw [Symbol.ofFirst, h, List.headD_cons]

/-- A text of one character is told by the lookahead that it spells. -/
theorem Symbol.ofLookahead_inj {s t : String} (hs : s.length = 1) (ht : t.length = 1)
    (h : Symbol.ofLookahead s = .ofLookahead t) : s = t := by
  obtain ⟨a, ha⟩ := length_eq_one_iff.mp hs
  obtain ⟨b, hb⟩ := length_eq_one_iff.mp ht
  unfold Symbol.ofLookahead at h
  rw [Symbol.ofFirst_of_toList ha, Symbol.ofFirst_of_toList hb] at h
  split at h <;> split at h
  · next hs ht => rw [hs, ht]
  · cases h
  · cases h
  · cases h
    exact String.toList_injective (ha.trans hb.symm)

namespace Document

variable {d : Document} {g : Grammar} {row : String × Value} {nt : Nat}

/-! ## Places -/

theorem isRow_object {ms : List (String × Value)} :
    IsRow g nt (.object ms) ↔ ∀ m ∈ ms, ∃ x : String × String,
      m = (x.1, .string x.2) ∧ x.1.length = 1 ∧ (g.alternativeOf? nt x.2).isSome := by
  rw [forall_exists_iff]
  simp only [IsRow, Value.object.injEq]

theorem nodup_keys_entriesOf (hrow : IsRow g nt row.2) (hkeys : (Keyed.keys row.2.members).Nodup) :
    (Keyed.keys (entriesOf g row)).Nodup := by
  have hplaces : Keyed.keys (entriesOf g row) =
      (Keyed.keys row.2.members).map fun key => (g.names.idxOf row.1, Symbol.ofLookahead key) := by
    simp [Keyed.keys, entriesOf, entryOf]
  have hlen : ∀ key ∈ Keyed.keys row.2.members, key.length = 1 := by
    obtain ⟨cells, hcells, hall⟩ := hrow
    intro key hkey
    rw [hcells, members_object, Keyed.keys, List.map_map] at hkey
    obtain ⟨cell, hcell, rfl⟩ := List.mem_map.mp hkey
    exact (hall cell hcell).1
  rw [hplaces]
  exact hkeys.map_on fun s hs t ht heq =>
    Symbol.ofLookahead_inj (hlen s hs) (hlen t ht) (Prod.ext_iff.mp heq).2

theorem fst_of_mem_keys_entriesOf {cell : Cell} (h : cell ∈ Keyed.keys (entriesOf g row)) :
    cell.1 = g.names.idxOf row.1 := by
  obtain ⟨e, he, rfl⟩ := List.mem_map.mp h
  obtain ⟨x, _, rfl⟩ := List.mem_map.mp he
  rfl

/-- No place stands twice: not in one row, and the rows are those of different non-terminals. -/
theorem nodup_keys_entries (hd : d.Tidy) (hl : d.Loadable) :
    (Keyed.keys (d.table.flatMap (entriesOf d.grammar))).Nodup := by
  unfold Keyed.keys
  rw [List.map_flatMap, List.nodup_flatMap]
  constructor
  · intro row hrow
    refine nodup_keys_entriesOf (hl.table row hrow).2 ?_
    obtain ⟨cells, hcells, _⟩ := (hl.table row hrow).2
    rw [hcells, members_object]
    exact hd.table.2 row hrow _ (by rw [hcells]; rfl)
  · have hrows : d.table.Pairwise fun a b => a.1 ≠ b.1 := List.pairwise_map.mp hd.table.1
    refine hrows.imp_of_mem fun {a b} ha hb hne cell hcella hcellb => hne ?_
    have hsame := (fst_of_mem_keys_entriesOf hcella).symm.trans (fst_of_mem_keys_entriesOf hcellb)
    exact (List.idxOf_inj (hl.table a ha).1).mp hsame

/-- What is entered last for a place is all that is entered for it. -/
theorem lookup_described (hd : d.Tidy) (hl : d.Loadable) (nt : Nat) (x : Symbol) :
    d.described.table.lookup nt x =
      Keyed.get? (nt, x) (d.table.flatMap (entriesOf d.grammar)) := by
  unfold ParsingTable.lookup described
  rw [Keyed.ofList_of_nodup (nodup_keys_entries hd hl)]

theorem lookup_described_eq_some_iff (hd : d.Tidy) (hl : d.Loadable) {nt k : Nat} {x : Symbol} :
    d.described.table.lookup nt x = some k ↔
      ∃ row ∈ d.table, ∃ cell ∈ row.2.members, entryOf d.grammar row.1 cell = ((nt, x), k) := by
  rw [lookup_described hd hl, Keyed.get?_eq_some_iff (nodup_keys_entries hd hl)]
  simp only [List.mem_flatMap, entriesOf, List.mem_map]

theorem size_described (hd : d.Tidy) (hl : d.Loadable) :
    d.described.table.size = (d.table.map fun row => row.2.members.length).sum := by
  unfold ParsingTable.size described
  rw [Keyed.ofList_of_nodup (nodup_keys_entries hd hl), List.length_flatMap]
  simp only [entriesOf, List.length_map]

/-- A cell of a document that loads has a text under its key, which writes an alternative. -/
theorem Loadable.exists_text (hl : d.Loadable) (hrow : row ∈ d.table) {cell : String × Value}
    (hcell : cell ∈ row.2.members) :
    cell.1.length = 1 ∧ ∃ text, cell.2 = .string text ∧
      (d.grammar.alternativeOf? (d.grammar.names.idxOf row.1) text).isSome := by
  obtain ⟨cells, hcells, hall⟩ := (hl.table row hrow).2
  rw [hcells, members_object] at hcell
  obtain ⟨x, hx, rfl⟩ := List.mem_map.mp hcell
  obtain ⟨hlen, hfound⟩ := hall x hx
  exact ⟨hlen, x.2, rfl, hfound⟩

end Document

theorem readLookahead_of_length_eq_one {s : String} (h : s.length = 1) :
    readLookahead s = .ok (.ofLookahead s) := by
  rw [readLookahead_eq_judge]
  exact Check.judge_of_all (by simp [Document.lookaheadCheck, h]) _

namespace Configuration

/-! ## Cells and entries -/

/-- The cell with this key, in the row of this name, is for the place of `nt` under `x`. -/
structure IsPlaceOf (c : Configuration) (name key : String) (nt : Nat) (x : Symbol) : Prop where
  row : c.grammar.idOf? name = some nt
  lookahead : readLookahead key = .ok x

theorem isPlaceOf_entryOf {d : Document} (hl : d.Loadable) {row cell : String × Value}
    (hrow : row ∈ d.table) (hcell : cell ∈ row.2.members) :
    d.described.IsPlaceOf row.1 cell.1 (Document.entryOf d.grammar row.1 cell).1.1
      (Document.entryOf d.grammar row.1 cell).1.2 := by
  constructor
  · exact (d.grammar.idOf?_eq row.1).trans (if_pos (hl.table row hrow).1)
  · exact readLookahead_of_length_eq_one (hl.exists_text hrow hcell).1

/-- The table of a document that loads has as many entries as the rows of the document have cells.
Each cell, in whatever row, is found at its place with the alternative that its text writes, and at
all other places there is nothing: so nothing stands under an empty marker, a non-terminal, or the
character that the end mark is spelled by. -/
theorem every_cell_has_an_entry_of_its_own {text : String} {d : Document} {c : Configuration}
    (hd : Document.ofText text = .ok d) (hc : ofText text = .ok c) :
    (∀ row ∈ d.table, row.2 = .object row.2.members) ∧
    c.table.size = (d.table.map fun row => row.2.members.length).sum ∧
    (∀ row ∈ d.table, ∀ cell ∈ row.2.members, ∃ nt x s k, c.IsPlaceOf row.1 cell.1 nt x ∧
      cell.2 = .string s ∧ c.grammar.alternativeOf? nt s = some k ∧ c.table.lookup nt x = some k) ∧
    (∀ nt x, (∀ row ∈ d.table, ∀ cell ∈ row.2.members, ¬ c.IsPlaceOf row.1 cell.1 nt x) →
      c.table.lookup nt x = none) ∧
    ∀ nt x, ¬ x.IsLookahead → c.table.lookup nt x = none := by
  have htidy := Document.tidy_of_ofText hd
  have hwf := wellFormed_of_ofText hc
  obtain ⟨hl, rfl⟩ := (ofText_eq_ok_iff hd).mp hc
  refine ⟨fun row hrow => ?_, Document.size_described htidy hl, fun row hrow cell hcell => ?_,
    fun nt x hnone => ?_, fun nt x hx => hwf.lookup_eq_none hx⟩
  · obtain ⟨cells, hcells, _⟩ := (hl.table row hrow).2
    rw [hcells, Document.members_object]
  · obtain ⟨_, s, hs, hfound⟩ := hl.exists_text hrow hcell
    obtain ⟨k, hk⟩ := Option.isSome_iff_exists.mp hfound
    have hentry : (Document.entryOf d.grammar row.1 cell).2 = k := by
      rw [Document.entryOf, hs, Document.text_string, hk, Option.getD_some]
    refine ⟨_, _, s, k, isPlaceOf_entryOf hl hrow hcell, hs, hk, ?_⟩
    exact (Document.lookup_described_eq_some_iff htidy hl).mpr
      ⟨row, hrow, cell, hcell, Prod.ext rfl hentry⟩
  · rw [Option.eq_none_iff_forall_not_mem]
    intro k hk
    obtain ⟨row, hrow, cell, hcell, hentry⟩ :=
      (Document.lookup_described_eq_some_iff htidy hl).mp hk
    have hplace := isPlaceOf_entryOf hl hrow hcell
    rw [hentry] at hplace
    exact hnone row hrow cell hcell hplace

/-- `S → a T` and `T → b | ε`, with a cell under the end mark and two under characters, one of them
with its non-terminal in front of the alternative. -/
def threeCells : Document where
  name := "g"
  start := "S"
  closing := none
  rules := [("S", .array [.array [.string "a", .string "T"]]),
    ("T", .array [.array [.string "b"], .array []])]
  first := []
  follow := []
  table := [("T", .object [("$", .string "ε"), ("b", .string "T → b")]),
    ("S", .object [("a", .string "a T")])]

def threeCellsText : String :=
  "\x7b\"name\":\"g\",\"start\":\"S\"," ++
    "\"rules\":\x7b\"S\":[[\"a\",\"T\"]],\"T\":[[\"b\"],[]]\x7d," ++
    "\"table\":\x7b\"T\":\x7b\"$\":\"ε\",\"b\":\"T → b\"\x7d,\"S\":\x7b\"a\":\"a T\"\x7d\x7d\x7d"

theorem ofText_threeCellsText : Document.ofText threeCellsText = .ok threeCells := by cbv

/-- They are three entries, and the character `$` has none. -/
theorem three_cells_are_three_entries :
    Document.ofText threeCellsText = .ok threeCells ∧
      ∃ c, ofText threeCellsText = .ok c ∧ c.table.size = 3 ∧
        c.table.lookup 1 .endMark = some 1 ∧ c.table.lookup 1 (.terminal '$') = none := by
  have hc : ofText threeCellsText = .ok threeCells.described := by
    rw [ofText, ofText_threeCellsText]
    rfl
  obtain ⟨_, hsize, hcells, _, hothers⟩ :=
    every_cell_has_an_entry_of_its_own ofText_threeCellsText hc
  obtain ⟨nt, x, s, k, ⟨hrow, hx⟩, hs, hk, hlookup⟩ :=
    hcells _ List.mem_cons_self _ List.mem_cons_self
  cases hrow
  cases hx
  cases hs
  cases hk
  exact ⟨ofText_threeCellsText, _, hc, hsize, hlookup, hothers _ _ fun h => h rfl⟩

end Configuration

end TopDown
