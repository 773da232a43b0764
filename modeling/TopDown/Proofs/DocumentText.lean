-- A document that is written as a text is read from it as what it was. All fields are written, each
-- under its key; the reader comes by them in that order and has none of them twice.
import TopDown.Proofs.Writing

namespace TopDown

namespace Document

open Json (Value)
open Json.Reader

/-- What a field holds, as a value. -/
def valueOf (d : Document) : Field → Value
  | .name => .string d.name
  | .start => .string d.start
  | .closing => d.closing.elim .null .string
  | .rules => .object d.rules
  | .first => .object d.first
  | .follow => .object d.follow
  | .table => .object d.table

/-- The document as a text, with all its fields. -/
def text (d : Document) : String :=
  (Value.object (Field.all.map fun f => (f.key, d.valueOf f))).write 0

/-- The fields of a document read from it one after another. -/
def fill (d : Document) (draft : Draft) : Field → Draft
  | .name => { draft with name := some d.name }
  | .start => { draft with start := some d.start }
  | .closing => { draft with closing := some d.closing }
  | .rules => { draft with rules := some d.rules }
  | .first => { draft with first := some d.first }
  | .follow => { draft with follow := some d.follow }
  | .table => { draft with table := some d.table }

/-- No key stands twice, and all values can be read from what is written of them. -/
structure Readable (d : Document) : Prop where
  distinct : d.Distinct
  rules : ∀ m ∈ d.rules, m.2.Readable Draft.levels
  first : ∀ m ∈ d.first, m.2.Readable Draft.levels
  follow : ∀ m ∈ d.follow, m.2.Readable Draft.levels
  table : ∀ m ∈ d.table, m.2.Readable Draft.levels

theorem takes_field {d : Document} (hd : d.Readable) (draft : Draft) (f : Field) (depth : Nat) :
    Takes (draft.read f) ((d.valueOf f).write depth).toList (d.fill draft f) := by
  intro blanks hblanks s
  cases f with
  | name => exact (Value.takes_text d.name depth blanks hblanks s).bind (runs_pure _ _)
  | start => exact (Value.takes_text d.start depth blanks hblanks s).bind (runs_pure _ _)
  | closing => exact (Value.takes_textOrNull d.closing depth blanks hblanks s).bind (runs_pure _ _)
  | rules =>
    exact (Value.takes_map hd.distinct.rules hd.rules depth blanks hblanks s).bind (runs_pure _ _)
  | first =>
    exact (Value.takes_map hd.distinct.first hd.first depth blanks hblanks s).bind (runs_pure _ _)
  | follow =>
    exact (Value.takes_map hd.distinct.follow hd.follow depth blanks hblanks s).bind (runs_pure _ _)
  | table =>
    exact (Value.takes_map hd.distinct.table hd.table depth blanks hblanks s).bind (runs_pure _ _)

theorem has_fill (d : Document) (draft : Draft) (f g : Field) :
    (d.fill draft f).has g = (decide (f = g) || draft.has g) := by
  cases f <;> cases g <;> rfl

/-- A field has been read if it is among those that were. -/
theorem has_foldl_fill (d : Document) (draft : Draft) (fs : List Field) (g : Field) :
    (fs.foldl d.fill draft).has g = (decide (g ∈ fs) || draft.has g) := by
  induction fs generalizing draft with
  | nil => simp
  | cons f fs ih =>
    rw [List.foldl_cons, ih, has_fill]
    by_cases hf : f = g <;> simp [hf, Ne.symm]

theorem ofKey?_key (f : Field) : Field.ofKey? f.key = some f := by
  cases f <;> rfl

/-- The fields of a written document are read one after another. -/
theorem runs_ofObject {d : Document} (hd : d.Readable) (s : List Char) :
    Runs ofObject (Json.inside 0 ['\x7d'] true
      (Field.all.map fun f => memberText f.key ((d.valueOf f).write 1).toList) ++ s) d s := by
  unfold ofObject
  refine runs_loop (fun before : List Field => (before.isEmpty, before.foldl d.fill {}))
    (fun (before after : List Field) => Json.inside 0 ['\x7d'] before.isEmpty
      (after.map fun f => memberText f.key ((d.valueOf f).write 1).toList) ++ s)
    Field.all ?_ ?_ ?_
  · intro before f after hall
    have hfresh : (before.foldl d.fill {}).has f = false := by
      have hnodup : (before ++ f :: after).Nodup := hall ▸ (by decide)
      have hnot : f ∉ before := fun hmem =>
        (List.nodup_append.mp hnodup).2.2 f hmem f List.mem_cons_self rfl
      rw [has_foldl_fill, decide_eq_false hnot]
      cases f <;> rfl
    have hmore : (before ++ [f]).isEmpty = false := by simp
    have hspace : ∀ c ∈ [' '], isSpace c = true := List.forall_mem_singleton.mpr rfl
    have hfill : (before ++ [f]).foldl d.fill {} = d.fill (before.foldl d.fill {}) f := by
      rw [List.foldl_append]
      rfl
    rw [List.map_cons, hmore, hfill]
    refine (runs_nextKey f.key _ 0 _ _ s).bind ?_
    simp only [ofKey?_key, hfresh]
    refine (runs_colon _).bind ?_
    exact (takes_field hd _ f 1 [' '] hspace _).bind (runs_pure _ _)
  · have hfinish : (Field.all.foldl d.fill {}).finish? = some d := rfl
    rw [List.map_nil]
    refine (runs_nextKey_close 0 _ s).bind ?_
    simp only [hfinish]
    exact (runs_skip '\x7d' s).bind (runs_pure _ _)
  · exact Json.length_le_length_inside _ Field.all 0 ['\x7d'] true s

/-- A written document is read as what it was. -/
theorem ofText_text {d : Document} (hd : d.Readable) : ofText d.text = .ok d := by
  have htext : d.text.toList = '\x7b' :: Json.inside 0 ['\x7d'] true
      (Field.all.map fun f => memberText f.key ((d.valueOf f).write 1).toList) := by
    rw [text, Value.toList_write_object, List.map_map]
    rfl
  have hend : Runs peekSolid [] none [] := fun place => ⟨place, rfl⟩
  have hobject := runs_ofObject hd []
  rw [List.append_nil] at hobject
  have hread : Runs read d.text.toList d [] := by
    rw [htext]
    refine (runs_peekSolid_self (c := '\x7b') rfl _).bind ?_
    refine (runs_skip '\x7b' _).bind (hobject.bind ?_)
    exact hend.bind (runs_pure d [])
  obtain ⟨place, hrun⟩ := hread ⟨1, 0⟩
  unfold ofText
  rw [StateT.run, Json.Cursor.start, hrun]
  rfl

end Document

end TopDown
