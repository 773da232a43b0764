-- The order of keys only renumbers. The number of a non-terminal is the place of its rule key, so a
-- document with its keys in another order describes the same with other numbers: the parser and the
-- generator that are made from it do the same.
import Mathlib
import TopDown.Proofs.Entries
import TopDown.Proofs.Reloading
import TopDown.Proofs.Renaming

namespace TopDown

open Json (Value)

/-! ## Another order -/

namespace Document

/-- The row of the same name, with its cells in another order. -/
def SameRow (row row' : String × Value) : Prop :=
  row.1 = row'.1 ∧
    ∃ cells cells', row.2 = .object cells ∧ row'.2 = .object cells' ∧ cells.Perm cells'

/-- The keys of each map and of each row of the table may stand in another order. The alternatives
under a rule key stay in theirs. -/
structure Reordered (d d' : Document) : Prop where
  name_eq : d'.name = d.name
  start_eq : d'.start = d.start
  closing_eq : d'.closing = d.closing
  rules : d.rules.Perm d'.rules
  first : d.first.Perm d'.first
  follow : d.follow.Perm d'.follow
  table : ∃ rows, d.table.Perm rows ∧ List.Forall₂ SameRow rows d'.table

/-- The entry for the same place, whose number is sent to another. -/
def renameEntry (f : Nat → Nat) : Cell × Nat → Cell × Nat :=
  Prod.map (Prod.map f (Symbol.rename f)) id

/-- The number that stands among `names'` for the name that `nt` stands for among `names`. -/
def renumber (names names' : List String) (nt : Nat) : Nat := names[nt]?.elim nt names'.idxOf

end Document

/-! ## Numbers -/

section

open Document (renumber)

variable {names names' : List String} {name : String} {nt : Nat}

theorem renumber_idxOf (h : name ∈ names) :
    renumber names names' (names.idxOf name) = names'.idxOf name := by
  unfold renumber
  rw [List.getElem?_idxOf h]
  rfl

theorem renumber_eq_self (h : names.length ≤ nt) : renumber names names' nt = nt := by
  unfold renumber
  rw [List.getElem?_eq_none h]
  rfl

/-- Every number of a name is told by the name. -/
theorem exists_idxOf_eq (hnodup : names.Nodup) (h : nt < names.length) :
    ∃ name ∈ names, names.idxOf name = nt :=
  ⟨names[nt], List.getElem_mem h, hnodup.idxOf_getElem nt h⟩

theorem renumber_injective (hnodup : names.Nodup) (hperm : names.Perm names') :
    Function.Injective (renumber names names') := by
  have hlen := hperm.length_eq
  -- A number of a name goes to one, any other stays and is none.
  have hlow : ∀ name ∈ names, names'.idxOf name < names.length := by
    intro name hname
    rw [hlen]
    exact List.idxOf_lt_length_iff.mpr (hperm.mem_iff.mp hname)
  intro m n h
  rcases Nat.lt_or_ge m names.length with hm | hm <;>
    rcases Nat.lt_or_ge n names.length with hn | hn
  · obtain ⟨a, ha, rfl⟩ := exists_idxOf_eq hnodup hm
    obtain ⟨b, hb, rfl⟩ := exists_idxOf_eq hnodup hn
    rw [renumber_idxOf ha, renumber_idxOf hb] at h
    rw [(List.idxOf_inj (hperm.mem_iff.mp ha)).mp h]
  · obtain ⟨a, ha, rfl⟩ := exists_idxOf_eq hnodup hm
    rw [renumber_idxOf ha, renumber_eq_self hn] at h
    have := hlow a ha
    omega
  · obtain ⟨b, hb, rfl⟩ := exists_idxOf_eq hnodup hn
    rw [renumber_idxOf hb, renumber_eq_self hm] at h
    have := hlow b hb
    omega
  · rwa [renumber_eq_self hm, renumber_eq_self hn] at h

theorem Symbol.ofSpelling_renumber (hperm : names.Perm names') (s : String) :
    Symbol.ofSpelling names' s = (Symbol.ofSpelling names s).rename (renumber names names') := by
  unfold Symbol.ofSpelling
  by_cases hs : s ∈ names
  · rw [if_pos hs, if_pos (hperm.mem_iff.mp hs), Symbol.rename_nonTerminal, renumber_idxOf hs]
  · rw [if_neg hs, if_neg (hperm.mem_iff.not.mp hs)]
    split <;> rfl

/-- A lookahead is no non-terminal. -/
theorem Symbol.ofLookahead_rename (f : Nat → Nat) (s : String) :
    (Symbol.ofLookahead s).rename f = .ofLookahead s := by
  unfold Symbol.ofLookahead
  split <;> rfl

theorem Document.alternativesOf_renumber (hperm : names.Perm names') {rule : String × Value}
    (hrule : rule.1 ∈ names) :
    alternativesOf names' rule =
      (alternativesOf names rule).map (Production.rename (renumber names names')) := by
  unfold alternativesOf
  generalize rule.2.items.map Value.texts = alternatives
  rw [List.map_map]
  apply List.map_congr_left
  intro spellings _
  have hsymbols : spellings.map (Symbol.ofSpelling names') =
      (spellings.map (Symbol.ofSpelling names)).map
        (Symbol.rename (renumber names names')) := by
    rw [List.map_map]
    exact List.map_congr_left fun s _ => Symbol.ofSpelling_renumber hperm s
  cases spellings with
  | nil => simp [Production.rename, renumber_idxOf hrule, Symbol.rename]
  | cons s ss => simpa [Production.rename, renumber_idxOf hrule] using hsymbols

/-- Where each key stands once, the pair under a key stands at the place of the key. -/
theorem getElem?_idxOf_keys {ν : Type} {es : List (String × ν)} (h : (Keyed.keys es).Nodup)
    {e : String × ν} (he : e ∈ es) : es[(Keyed.keys es).idxOf e.1]? = some e := by
  obtain ⟨i, hi, rfl⟩ := List.getElem_of_mem he
  have hi' : i < (Keyed.keys es).length := by simpa [Keyed.keys] using hi
  have hkey : (Keyed.keys es)[i] = es[i].1 := by simp [Keyed.keys]
  rw [← hkey, h.idxOf_getElem]
  exact List.getElem?_eq_getElem hi

end

namespace Document

variable {d d' : Document}

/-! ## Grammars -/

/-- The numbers in the one document as those in the other. -/
def renumbered (d d' : Document) : Nat → Nat := renumber d.names d'.names

theorem idxOf_names {name : String} (hname : name ∈ d.names) :
    d'.names.idxOf name = renumbered d d' (d.names.idxOf name) := (renumber_idxOf hname).symm

namespace Reordered

variable (h : d.Reordered d')
include h

theorem names_perm : d.names.Perm d'.names := h.rules.map Prod.fst

/-- The name goes with the number. A number that has no name stays, and has none again. -/
theorem getElem?_names (hd : d.names.Nodup) (nt : Nat) :
    d'.names[renumbered d d' nt]? = d.names[nt]? := by
  have hperm := h.names_perm
  have hlen := hperm.length_eq
  rcases Nat.lt_or_ge nt d.names.length with hlt | hge
  · obtain ⟨name, hname, rfl⟩ := exists_idxOf_eq hd hlt
    rw [← idxOf_names hname, List.getElem?_idxOf hname,
      List.getElem?_idxOf (hperm.mem_iff.mp hname)]
  · rw [renumbered, renumber_eq_self hge, List.getElem?_eq_none hge,
      List.getElem?_eq_none (by omega)]

/-- And so does the rule under it. -/
theorem getElem?_rules (hd : d.names.Nodup) (nt : Nat) :
    d'.rules[renumbered d d' nt]? = d.rules[nt]? := by
  have hd' : d'.names.Nodup := h.names_perm.nodup_iff.mp hd
  have hlen : d.names.length = d.rules.length := List.length_map Prod.fst
  have hrules := h.rules.length_eq
  rcases Nat.lt_or_ge nt d.names.length with hlt | hge
  · obtain ⟨name, hname, rfl⟩ := exists_idxOf_eq hd hlt
    obtain ⟨rule, hrule, rfl⟩ := List.mem_map.mp hname
    have hplace : d.rules[d.names.idxOf rule.1]? = some rule := getElem?_idxOf_keys hd hrule
    have hplace' : d'.rules[d'.names.idxOf rule.1]? = some rule :=
      getElem?_idxOf_keys hd' (h.rules.mem_iff.mp hrule)
    rw [← idxOf_names hname, hplace, hplace']
  · rw [renumbered, renumber_eq_self hge, List.getElem?_eq_none (by omega),
      List.getElem?_eq_none (by omega)]

theorem grammar (hd : d.names.Nodup) (hstart : d.start ∈ d.names) :
    d.grammar.Renamed (renumbered d d') d'.grammar := by
  refine ⟨renumber_injective hd h.names_perm, h.getElem?_names hd, ?_, fun nt => ?_⟩
  · change d'.names.idxOf d'.start = renumbered d d' (d.names.idxOf d.start)
    rw [h.start_eq, idxOf_names hstart]
  · change Rows.row (d'.rules.map (alternativesOf d'.names)) (renumbered d d' nt) =
      (Rows.row (d.rules.map (alternativesOf d.names)) nt).map (Production.rename _)
    unfold Rows.row
    rw [List.getElem?_map, List.getElem?_map, h.getElem?_rules hd]
    cases hrule : d.rules[nt]? with
    | none => rfl
    | some rule =>
      have hname : rule.1 ∈ d.names := List.mem_map.mpr ⟨rule, List.mem_of_getElem? hrule, rfl⟩
      rw [Option.map_some, Option.map_some, alternativesOf_renumber h.names_perm hname]
      rfl

/-! ## Rows -/

/-- Each row of the table stands in the other document, maybe with its cells in another order. -/
theorem exists_row : ∀ row' ∈ d'.table, ∃ row ∈ d.table, SameRow row row' := by
  obtain ⟨rows, hrows, hsame⟩ := h.table
  intro row' hrow'
  obtain ⟨i, hi, rfl⟩ := List.getElem_of_mem hrow'
  have hi' : i < rows.length := by
    have := hsame.length_eq
    omega
  exact ⟨rows[i], hrows.mem_iff.mpr (List.getElem_mem hi'), hsame.get hi' hi⟩

theorem loadable (hd : d.names.Nodup) (hl : d.Loadable) : d'.Loadable := by
  have hnames : ∀ {name}, name ∈ d.names → name ∈ d'.names := h.names_perm.mem_iff.mp
  have hg := h.grammar hd hl.start
  refine ⟨?_, fun rule hrule => ?_, fun name hname => ?_, fun row' hrow' => ?_,
    fun entry hentry => ?_, fun entry hentry => ?_⟩
  · rw [h.start_eq]
    exact hnames hl.start
  · obtain ⟨alternatives, hv, hne, hall⟩ := hl.rules rule (h.rules.mem_iff.mpr hrule)
    exact ⟨alternatives, hv, hne, fun spellings hspellings s hs =>
      (hall spellings hspellings s hs).imp_left hnames⟩
  · rw [h.closing_eq] at hname
    exact hnames (hl.closing name hname)
  · obtain ⟨row, hrow, hkey, cells, cells', hv, hv', hcells⟩ := h.exists_row row' hrow'
    obtain ⟨hname, hrow⟩ := hl.table row hrow
    rw [hv, isRow_object] at hrow
    rw [hv', isRow_object, ← hkey, idxOf_names hname]
    refine ⟨hnames hname, fun cell hcell => ?_⟩
    obtain ⟨x, hx, hlen, hfound⟩ := hrow cell (hcells.mem_iff.mpr hcell)
    exact ⟨x, hx, hlen, by rwa [hg.alternativeOf?_eq]⟩
  · obtain ⟨hname, hlist⟩ := hl.first entry (h.first.mem_iff.mpr hentry)
    exact ⟨hnames hname, hlist⟩
  · obtain ⟨hname, hlist⟩ := hl.follow entry (h.follow.mem_iff.mpr hentry)
    exact ⟨hnames hname, hlist⟩

/-! ## Tables -/

theorem entriesOf_perm (hd : d.names.Nodup) (hl : d.Loadable) {row row' : String × Value}
    (hrow : row.1 ∈ d.names) (hsame : SameRow row row') :
    ((entriesOf d.grammar row).map (renameEntry (renumbered d d'))).Perm
      (entriesOf d'.grammar row') := by
  obtain ⟨hkey, cells, cells', hv, hv', hcells⟩ := hsame
  have hg := h.grammar hd hl.start
  have hentry : entryOf d'.grammar row'.1 =
      renameEntry (renumbered d d') ∘ entryOf d.grammar row.1 := by
    funext cell
    have hidx : d'.grammar.names.idxOf row'.1 =
        renumbered d d' (d.grammar.names.idxOf row.1) := by
      rw [← hkey]
      exact idxOf_names hrow
    simp only [entryOf, renameEntry, Function.comp_apply, Prod.map, hidx, hg.alternativeOf?_eq,
      Symbol.ofLookahead_rename, id]
  unfold entriesOf
  rw [hv, hv', members_object, members_object, List.map_map, ← hentry]
  exact hcells.map _

/-- The same entries are made, in another order and with other numbers. -/
theorem entries_perm (hd : d.names.Nodup) (hl : d.Loadable) :
    ((d.table.flatMap (entriesOf d.grammar)).map (renameEntry (renumbered d d'))).Perm
      (d'.table.flatMap (entriesOf d'.grammar)) := by
  obtain ⟨rows, hrows, hsame⟩ := h.table
  have hknown : ∀ row ∈ rows, row.1 ∈ d.names := fun row hrow =>
    (hl.table row (hrows.mem_iff.mpr hrow)).1
  refine ((hrows.flatMap_right _).map _).trans ?_
  clear hrows
  generalize d'.table = rows' at hsame
  induction hsame with
  | nil => exact .nil
  | @cons row row' rows rows' hrow _ ih =>
    rw [List.flatMap_cons, List.flatMap_cons, List.map_append]
    exact (h.entriesOf_perm hd hl (hknown row List.mem_cons_self) hrow).append
      (ih fun r hr => hknown r (List.mem_cons_of_mem row hr))

/-! ## Parsers and generators -/

theorem parser (hd : d.Tidy) (hd' : d'.Tidy) (hl : d.Loadable) :
    (Parser.ofConfiguration d.described).Renamed (renumbered d d')
      (Parser.ofConfiguration d'.described) := by
  have hg := h.grammar hd.rules.1 hl.start
  have hperm := h.entries_perm hd.rules.1 hl
  have hcell : Function.Injective
      (Prod.map (renumbered d d') (Symbol.rename (renumbered d d'))) :=
    hg.injective.prodMap (Symbol.rename_injective hg.injective)
  refine ⟨hg, fun nt x => ?_⟩
  have hnodup := nodup_keys_entries hd' (h.loadable hd.rules.1 hl)
  change d'.described.table.lookup _ _ = d.described.table.lookup nt x
  rw [lookup_described hd hl, lookup_described hd' (h.loadable hd.rules.1 hl),
    Keyed.get?_eq_of_perm hperm.symm hnodup]
  exact Keyed.get?_map hcell (nt, x) _

theorem generator (hd : d.Tidy) (hl : d.Loadable) (maxDepth : Nat) :
    { Generator.ofConfiguration d.described with maxDepth }.Renamed (renumbered d d')
      { Generator.ofConfiguration d'.described with maxDepth } := by
  refine ⟨h.grammar hd.rules.1 hl.start, ?_, rfl⟩
  have hclosing : d'.closing.map d'.names.idxOf =
      (d.closing.map d.names.idxOf).map (renumbered d d') := by
    rw [h.closing_eq, Option.map_map]
    exact Option.map_congr fun name hname => idxOf_names (hl.closing name hname)
  simp only [Generator.ofConfiguration, ExhaustionPolicy.ofConfiguration, described, hclosing]
  cases d.closing <;> rfl

end Reordered

end Document

namespace Configuration

/-- Where the keys of the maps and rows of a document that loads stand in another order, the other
document loads too. Then every sentence is parsed alike, with the same status, the same number of
steps and the same rows, or neither run ends. And the generators, with the same budget, ceiling and
source, give the same sentence and trace or fail alike, and have drawn the same. -/
theorem the_order_of_keys_only_renumbers {text text' : String} {d d' : Document} {c : Configuration}
    (h : Document.ofText text = .ok d) (h' : Document.ofText text' = .ok d')
    (hd : d.Reordered d') (hc : ofText text = .ok c) :
    ∃ c', ofText text' = .ok c' ∧
      (∀ w, ((Parser.ofConfiguration c').run w).map (Parser.seen c'.grammar) =
        ((Parser.ofConfiguration c).run w).map (Parser.seen c.grammar)) ∧
      ∀ {σ : Type} [Chooser σ] (maxDepth : Nat) (budget : Int) (source : σ),
        ({ Generator.ofConfiguration c' with maxDepth }.derive budget source).1.map
            (Generator.seen c'.grammar) =
          ({ Generator.ofConfiguration c with maxDepth }.derive budget source).1.map
            (Generator.seen c.grammar) ∧
        ({ Generator.ofConfiguration c' with maxDepth }.derive budget source).2 =
          ({ Generator.ofConfiguration c with maxDepth }.derive budget source).2 := by
  have htidy := Document.tidy_of_ofText h
  have htidy' := Document.tidy_of_ofText h'
  rw [ofText_eq_judge h, Check.judge_eq_ok_iff, Document.all_checks] at hc
  obtain ⟨hl, rfl⟩ := hc
  have hl' := hd.loadable htidy.rules.1 hl
  refine ⟨d'.described, ?_, (hd.parser htidy htidy' hl).run_eq, fun maxDepth =>
    (hd.generator htidy hl maxDepth).derive_eq⟩
  rw [ofText_eq_judge h']
  exact Check.judge_of_all (Document.all_checks.mpr hl') _

/-- `S → a T` and `T → b | ε`. -/
def forwards : Document where
  name := "ab"
  start := "S"
  closing := none
  rules := [("S", .array [.array [.string "a", .string "T"]]),
    ("T", .array [.array [.string "b"], .array []])]
  first := []
  follow := []
  table := [("S", .object [("a", .string "a T")]),
    ("T", .object [("b", .string "b"), ("$", .string "ε")])]

/-- The same with `T` before `S`, and the end mark before `b`. -/
def backwards : Document where
  name := "ab"
  start := "S"
  closing := none
  rules := [("T", .array [.array [.string "b"], .array []]),
    ("S", .array [.array [.string "a", .string "T"]])]
  first := []
  follow := []
  table := [("T", .object [("$", .string "ε"), ("b", .string "b")]),
    ("S", .object [("a", .string "a T")])]

def forwardsText : String :=
  "\x7b\"name\":\"ab\",\"start\":\"S\"," ++
    "\"rules\":\x7b\"S\":[[\"a\",\"T\"]],\"T\":[[\"b\"],[]]\x7d," ++
    "\"table\":\x7b\"S\":\x7b\"a\":\"a T\"\x7d,\"T\":\x7b\"b\":\"b\",\"$\":\"ε\"\x7d\x7d\x7d"

def backwardsText : String :=
  "\x7b\"name\":\"ab\",\"start\":\"S\"," ++
    "\"rules\":\x7b\"T\":[[\"b\"],[]],\"S\":[[\"a\",\"T\"]]\x7d," ++
    "\"table\":\x7b\"T\":\x7b\"$\":\"ε\",\"b\":\"b\"\x7d,\"S\":\x7b\"a\":\"a T\"\x7d\x7d\x7d"

theorem ofText_forwardsText : Document.ofText forwardsText = .ok forwards := by cbv

theorem ofText_backwardsText : Document.ofText backwardsText = .ok backwards := by cbv

theorem reordered_backwards : forwards.Reordered backwards where
  name_eq := rfl
  start_eq := rfl
  closing_eq := rfl
  rules := (List.reverse_perm _).symm
  first := .nil
  follow := .nil
  table := ⟨forwards.table.reverse, (List.reverse_perm _).symm,
    .cons ⟨rfl, _, _, rfl, rfl, .swap _ _ _⟩ (.cons ⟨rfl, _, _, rfl, rfl, .refl _⟩ .nil)⟩

/-- The numbers are exchanged, the runs are alike. -/
theorem two_rules_stand_in_either_order :
    Document.ofText forwardsText = .ok forwards ∧ Document.ofText backwardsText = .ok backwards ∧
      forwards.Reordered backwards ∧
      ∃ c c', ofText forwardsText = .ok c ∧ ofText backwardsText = .ok c' ∧
        c.grammar.names = ["S", "T"] ∧ c'.grammar.names = ["T", "S"] ∧
        ∀ w, ((Parser.ofConfiguration c').run w).map (Parser.seen c'.grammar) =
          ((Parser.ofConfiguration c).run w).map (Parser.seen c.grammar) := by
  have hc : ofText forwardsText = .ok forwards.described := by
    rw [ofText, ofText_forwardsText]
    rfl
  obtain ⟨c', hc', hruns, _⟩ := the_order_of_keys_only_renumbers ofText_forwardsText
    ofText_backwardsText reordered_backwards hc
  have hdescribed : c' = backwards.described := by
    rw [ofText_eq_judge ofText_backwardsText, Check.judge_eq_ok_iff] at hc'
    exact hc'.2.symm
  exact ⟨ofText_forwardsText, ofText_backwardsText, reordered_backwards, _, c', hc, hc', rfl,
    hdescribed ▸ rfl, hruns⟩

end Configuration

end TopDown
