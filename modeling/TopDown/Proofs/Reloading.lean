-- A configuration can be written as a document and loaded again. The document has the names in order
-- of their numbers, the spellings of all symbols, and in each cell of the table the production that
-- it selects; what is loaded from it is the configuration, with its table sorted by rows.
import Mathlib
import TopDown.Proofs.DocumentText
import TopDown.Proofs.Legible

namespace TopDown

open Json (Value)

/-! ## Writing -/

namespace Grammar

/-- The spellings of symbols as an array of strings. -/
def spellings (g : Grammar) (xs : List Symbol) : Value :=
  .array (xs.map fun x => .string (g.spell x))

/-- The alternatives of a non-terminal as an array of such arrays. -/
def alternatives (g : Grammar) (nt : Nat) : Value :=
  .array ((g.productions nt).map fun p => g.spellings p.rhs)

/-- A member for each non-terminal under its name, in order of their numbers. -/
def byName (g : Grammar) (value : Nat → Value) : List (String × Value) :=
  (List.range g.names.length).map fun nt => (g.nameOf nt, value nt)

end Grammar

namespace Configuration

/-- The entries of the table for one non-terminal. -/
def row (c : Configuration) (nt : Nat) : List (Cell × Nat) :=
  c.table.entries.filter fun e => decide (e.1.1 = nt)

/-- An entry as a member of its row: the lookahead, and the production that is selected. -/
def cell (c : Configuration) (e : Cell × Nat) : String × Value :=
  (c.grammar.spell e.1.2,
    .string (((c.grammar.production? e.1.1 e.2).map c.grammar.write).getD "?"))

/-- The configuration as a document, from which it can be loaded again. -/
def document (c : Configuration) : Document where
  name := c.grammar.name
  start := c.grammar.nameOf c.grammar.start
  closing := c.closing.map c.grammar.nameOf
  rules := c.grammar.byName c.grammar.alternatives
  first := c.grammar.byName fun nt => c.grammar.spellings (c.sets.first nt)
  follow := c.grammar.byName fun nt => c.grammar.spellings (c.sets.follow nt)
  table := c.grammar.byName fun nt => .object ((c.row nt).map c.cell)

/-- The table as it stands in the document, row by row. -/
def sortedTable (c : Configuration) : ParsingTable :=
  ⟨(List.range c.grammar.names.length).flatMap c.row⟩

end Configuration

/-- What the name of a non-terminal has to be like for a table to say which rule it means. -/
structure PlainName (name : String) : Prop where
  ne_emptySpelling : name ≠ emptySpelling
  no_arrow : arrow ∉ name.toList
  trim_eq : Text.trim name = name

/-- A fold over the non-terminals succeeds if each turn does, and ends as the turns lead to. -/
theorem Grammar.exists_foldlM_byName {ε β : Type} (g : Grammar) {v : Nat → Value}
    {P : Nat → β → Prop} {f : β → String × Value → Except ε β}
    (hf : ∀ nt < g.names.length, ∀ b, P nt b →
      ∃ b', f b (g.nameOf nt, v nt) = .ok b' ∧ P (nt + 1) b') {b : β} (hb : P 0 b) :
    ∃ b', (g.byName v).foldlM f b = .ok b' ∧ P g.names.length b' := by
  unfold byName
  rw [List.foldlM_map]
  suffices h : ∀ n ≤ g.names.length, ∃ b',
      (List.range n).foldlM (fun b nt => f b (g.nameOf nt, v nt)) b = .ok b' ∧ P n b' from
    h g.names.length le_rfl
  intro n
  induction n with
  | zero => exact fun _ => ⟨b, rfl, hb⟩
  | succ n ih =>
    intro hn
    obtain ⟨d, hd, hPd⟩ := ih (by omega)
    obtain ⟨b', hb', hPb'⟩ := hf n hn d hPd
    refine ⟨b', ?_, hPb'⟩
    rw [List.range_succ, List.foldlM_append, bind_eq_ok_iff]
    exact ⟨d, hd, by rw [List.foldlM_cons, hb']; rfl⟩

/-! ## The first rows -/

namespace Rows

variable {α : Type} {rows : Nat → List α}

/-- The rows below `n`, and nothing in those that come after. -/
def below (n : Nat) (rows : Nat → List α) (i : Nat) : List α := if i < n then rows i else []

theorem below_zero (rows : Nat → List α) (i : Nat) : below 0 rows i = [] :=
  if_neg (Nat.not_lt_zero i)

theorem below_self (n : Nat) (rows : Nat → List α) : below n rows n = [] :=
  if_neg (Nat.lt_irrefl n)

/-- One more row is there once it is written. -/
theorem below_succ (n i : Nat) (rows : Nat → List α) :
    (if n = i then rows n else below n rows i) = below (n + 1) rows i := by
  unfold below
  by_cases h : n = i
  · rw [if_pos h, if_pos (by omega), h]
  · rw [if_neg h]
    by_cases hlt : i < n
    · rw [if_pos hlt, if_pos (by omega)]
    · rw [if_neg hlt, if_neg (by omega)]

theorem below_eq {n : Nat} (h : ∀ i, n ≤ i → rows i = []) (i : Nat) : below n rows i = rows i := by
  unfold below
  split
  · rfl
  · next hge => exact (h i (by omega)).symm

end Rows

/-! ## Names -/

namespace Grammar

variable {g h : Grammar}

theorem keys_byName (g : Grammar) (value : Nat → Value) :
    Keyed.keys (g.byName value) = g.names := by
  unfold byName Keyed.keys
  rw [List.map_map]
  apply List.ext_getElem
  · simp
  · intro nt h h'
    have hname : g.nameOf nt = g.names[nt] := by
      rw [nameOf, nameOf?, List.getElem?_eq_getElem h']
      rfl
    simpa using hname

theorem idOf?_nameOf (hg : g.names.Nodup) {id : Nat} (hid : id < g.names.length) :
    g.idOf? (g.nameOf id) = some id := idOf?_of_nameOf? hg (nameOf?_eq hid)

theorem requireId_nameOf (hg : g.names.Nodup) {id : Nat} (hid : id < g.names.length) :
    g.requireId (g.nameOf id) = .ok id := by
  simp only [requireId, idOf?_nameOf hg hid]

/-- Only the names count for what a spelling or a name means. -/
theorem readSymbol_congr (hnames : h.names = g.names) (s : String) :
    h.readSymbol s = g.readSymbol s := by
  simp only [readSymbol, idOf?, hnames]

theorem requireId_congr (hnames : h.names = g.names) (name : String) :
    h.requireId name = g.requireId name := by
  simp only [requireId, idOf?, hnames]

end Grammar

namespace Document

/-! ## Rules -/

variable {g h : Grammar} {nt : Nat}

theorem readProduction_spellings (g : Grammar) (xs : List Symbol) :
    readProduction (g.spellings xs) = .ok (xs.map g.spell) := by
  exact mapM_map_eq_ok fun x _ => rfl

theorem readAlternatives_spellings (g : Grammar) (ps : List Production) :
    readAlternatives (.array (ps.map fun p => g.spellings p.rhs)) =
      .ok (ps.map fun p => p.rhs.map g.spell) := by
  exact mapM_map_eq_ok fun p _ => readProduction_spellings g p.rhs

/-- Alternatives that are spelled are added as they are. -/
theorem exists_adds (hg : g.names.Nodup) (hempty : emptySpelling ∉ g.names)
    {ps : List Production} (hps : ∀ p ∈ ps, p.Fits g.names nt) (hnames : h.names = g.names) :
    ∃ h', (ps.map fun p => p.rhs.map g.spell).foldlM (fun g spellings => do
        return (g.addProduction nt (← spellings.mapM g.readSymbol)).2) h = Except.ok h' ∧
      h.Adds nt ps h' := by
  induction ps generalizing h with
  | nil => exact ⟨h, rfl, .refl h nt⟩
  | cons p ps ih =>
    have hp := hps p List.mem_cons_self
    have hrhs : (p.rhs.map g.spell).mapM h.readSymbol = .ok p.rhs := by
      have hsame : h.readSymbol = g.readSymbol := funext (Grammar.readSymbol_congr hnames)
      rw [hsame]
      exact Grammar.mapM_readSymbol_spell hg hempty hp.rhs_fits
    have hadds := Grammar.Adds.addProduction h nt p.rhs
    have heq : (⟨nt, if p.rhs.isEmpty then [.empty] else p.rhs⟩ : Production) = p := by
      rw [if_neg (by simpa using hp.rhs_ne_nil), ← hp.lhs_eq]
    rw [heq] at hadds
    obtain ⟨h', hh', hrest⟩ := ih (h := (h.addProduction nt p.rhs).2)
      (fun q hq => hps q (List.mem_cons_of_mem p hq)) hnames
    refine ⟨h', ?_, hadds.trans hrest⟩
    rw [List.map_cons, List.foldlM_cons, hrhs]
    exact hh'

/-- Reading a rule that was written adds the alternatives that were there. -/
theorem exists_addRule (hg : g.WellFormed) (hempty : emptySpelling ∉ g.names)
    (hnt : nt < g.names.length) (hnames : h.names = g.names) :
    ∃ h', addRule h (g.nameOf nt, g.alternatives nt) = .ok h' ∧
      h.Adds nt (g.productions nt) h' := by
  obtain ⟨h', hh', hadds⟩ := exists_adds hg.names_nodup hempty (hg.productions_fit nt) hnames
  refine ⟨h', ?_, hadds⟩
  have hid : h.requireId (g.nameOf nt) = .ok nt := by
    rw [Grammar.requireId_congr hnames]
    exact Grammar.requireId_nameOf hg.names_nodup hnt
  have hne : ((g.productions nt).map fun p => p.rhs.map g.spell).isEmpty = false := by
    simpa using hg.productions_ne_nil nt hnt
  unfold addRule
  simp only [hid, Grammar.alternatives, readAlternatives_spellings]
  exact bind_eq_ok_iff.mpr ⟨nt, rfl, bind_eq_ok_iff.mpr ⟨_, rfl, by simpa [hne] using hh'⟩⟩

/-- All rules together give every non-terminal its alternatives, and no other number any. -/
theorem exists_addRules (hg : g.WellFormed) (hempty : emptySpelling ∉ g.names)
    (hnames : h.names = g.names) (hnil : ∀ nt, h.productions nt = []) :
    ∃ h', (g.byName g.alternatives).foldlM addRule h = .ok h' ∧ h'.names = g.names ∧
      h'.start = h.start ∧ ∀ nt, h'.productions nt = Rows.below g.names.length g.productions nt := by
  refine g.exists_foldlM_byName
    (P := fun m (k : Grammar) => k.names = g.names ∧ k.start = h.start ∧
      ∀ nt, k.productions nt = Rows.below m g.productions nt) ?_ ⟨hnames, rfl, fun nt => ?_⟩
  · rintro nt hnt k ⟨hk, hstart, hrules⟩
    obtain ⟨k', hk', hadds⟩ := exists_addRule hg hempty hnt hk
    refine ⟨k', hk', hadds.names_eq.trans hk, hadds.start_eq.trans hstart, fun other => ?_⟩
    rw [hadds.productions_eq, hrules, ← Rows.below_succ]
    split
    · next heq => rw [← heq, Rows.below_self, List.nil_append]
    · rfl
  · rw [Rows.below_zero, hnil]

/-- The grammar is read back as it was. -/
theorem readGrammar_document {c : Configuration} (hc : c.Legible)
    (hempty : emptySpelling ∉ c.grammar.names) : c.document.readGrammar = .ok c.grammar := by
  have hg := hc.wellFormed.grammar
  have hkeys : Keyed.keys c.document.rules = c.grammar.names := Grammar.keys_byName _ _
  have hdeclared : c.document.declared.names = c.grammar.names := by
    rw [names_declared (hkeys ▸ hg.names_nodup), hkeys]
  have hstart : c.document.declared.idOf? c.document.start = some c.grammar.start := by
    rw [Grammar.idOf?, hdeclared]
    exact Grammar.idOf?_nameOf hg.names_nodup hg.start_lt
  obtain ⟨h, hh, hnames, hstart', hrules⟩ := exists_addRules hg hempty
    (h := { c.document.declared with start := c.grammar.start }) hdeclared
    (productions_declared c.document)
  have hread : c.document.readGrammar = .ok h := by
    unfold readGrammar
    simp only [hstart]
    exact hh
  have houtline := outlines_of_readGrammar hread
  have hlen : h.rules.length = c.grammar.rules.length := by
    rw [houtline.length_rules, hc.length_rules, hnames]
  have hbeyond : ∀ i, c.grammar.names.length ≤ i → c.grammar.productions i = [] := by
    intro i hi
    exact Rows.row_of_length_le (hc.length_rules.trans_le hi)
  rw [hread, Grammar.eq_of_productions houtline.name_eq hstart' hnames hlen fun nt =>
    (hrules nt).trans (Rows.below_eq hbeyond nt)]

/-! ## Lists -/

theorem readSet_spellings (g : Grammar) {xs : List Symbol} (hxs : ∀ x ∈ xs, x.IsMember) :
    readSet (g.spellings xs) = .ok xs := by
  have h := mapM_map_eq_ok (f := fun m => do readMember (← require .symbol Value.string? m))
    (w := fun x => Value.string (g.spell x)) (u := id) fun x hx => readMember_spell g (hxs x hx)
  rw [List.map_id] at h
  exact h

/-- The lists of one kind are read back in their order; those of the other kind stay. -/
theorem exists_readLists (hg : g.names.Nodup) {xs : Nat → List Symbol}
    (hxs : ∀ nt, ∀ x ∈ xs nt, x.IsMember) (set : SymbolSets → Nat → List Symbol → SymbolSets)
    (get keep : SymbolSets → Nat → List Symbol)
    (hset : ∀ s nt nt' ys, get (set s nt ys) nt' = if nt = nt' then ys else get s nt')
    (hkeep : ∀ s nt nt' ys, keep (set s nt ys) nt' = keep s nt')
    (s : SymbolSets) (hs : ∀ nt, get s nt = []) :
    ∃ s', (g.byName fun nt => g.spellings (xs nt)).foldlM (fun s entry => do
        let nt ← g.requireId entry.1
        return set s nt (← readSet entry.2)) s = .ok s' ∧
      (∀ nt, get s' nt = Rows.below g.names.length xs nt) ∧ ∀ nt, keep s' nt = keep s nt := by
  refine g.exists_foldlM_byName
    (P := fun m t => (∀ nt, get t nt = Rows.below m xs nt) ∧ ∀ nt, keep t nt = keep s nt) ?_
    ⟨fun nt => by rw [Rows.below_zero, hs], fun _ => rfl⟩
  rintro nt hnt t ⟨hget, hkept⟩
  refine ⟨set t nt (xs nt), ?_, fun other => ?_, fun other => ?_⟩
  · simp only [Grammar.requireId_nameOf hg hnt, readSet_spellings g (hxs nt)]
    rfl
  · rw [hset, hget, Rows.below_succ]
  · rw [hkeep, hkept]

/-- The FIRST and FOLLOW lists are read back as they were. -/
theorem readSets_document {c : Configuration} (hc : c.Legible) :
    c.document.readSets c.grammar = .ok c.sets := by
  have hg := hc.wellFormed.grammar.names_nodup
  have hs := hc.sets
  have hnil : ∀ nt, Rows.row (Rows.grow c.grammar.names.length ([] : List (List Symbol))) nt = [] :=
    fun nt => Rows.row_grow _ nt []
  obtain ⟨s, hread, hfirst, hkept⟩ := exists_readLists hg hs.isMember_first
    SymbolSets.setFirst SymbolSets.first SymbolSets.follow
    (fun s nt nt' ys => s.first_setFirst nt nt' ys) (fun _ _ _ _ => rfl)
    (SymbolSets.new c.grammar.names.length) hnil
  obtain ⟨s', hread', hfollow, hkept'⟩ := exists_readLists hg hs.isMember_follow
    SymbolSets.setFollow SymbolSets.follow SymbolSets.first
    (fun s nt nt' ys => s.follow_setFollow nt nt' ys) (fun _ _ _ _ => rfl)
    s fun nt => (hkept nt).trans (hnil nt)
  have hboth : c.document.readSets c.grammar = .ok s' := bind_eq_ok_iff.mpr ⟨s, hread, hread'⟩
  have hs' := legible_of_readSets hboth
  have hrows : s'.firstRows = c.sets.firstRows := by
    refine Rows.ext (hs'.length_first.trans hs.length_first.symm) fun nt => ?_
    refine ((hkept' nt).trans (hfirst nt)).trans (Rows.below_eq (fun i hi => ?_) nt)
    exact Rows.row_of_length_le (hs.length_first.trans_le hi)
  have hrows' : s'.followRows = c.sets.followRows := by
    refine Rows.ext (hs'.length_follow.trans hs.length_follow.symm) fun nt => ?_
    refine (hfollow nt).trans (Rows.below_eq (fun i hi => ?_) nt)
    exact Rows.row_of_length_le (hs.length_follow.trans_le hi)
  have heq : s' = c.sets := (SymbolSets.mk.injEq ..).mpr ⟨hrows, hrows'⟩
  rw [hboth, heq]

/-! ## The table -/

/-- The rows of the first non-terminals have together the entries for these. -/
theorem perm_flatMap_row (c : Configuration) (n : Nat) :
    ((List.range n).flatMap c.row).Perm
      (c.table.entries.filter fun e => decide (e.1.1 < n)) := by
  induction n with
  | zero => simp
  | succ n ih =>
    -- The entries of one row more are those before the row and those in it.
    have hsplit := List.filter_append_perm (fun e => decide (e.1.1 < n))
      (c.table.entries.filter fun e => decide (e.1.1 < n + 1))
    rw [List.filter_filter, List.filter_filter] at hsplit
    have hbefore : (fun e : Cell × Nat => decide (e.1.1 < n) && decide (e.1.1 < n + 1)) =
        fun e => decide (e.1.1 < n) := by
      funext e
      by_cases h : e.1.1 < n
      · simp [h, Nat.lt_succ_of_lt h]
      · simp [h]
    have hrow : (fun e : Cell × Nat => !decide (e.1.1 < n) && decide (e.1.1 < n + 1)) =
        fun e => decide (e.1.1 = n) := by
      funext e
      rw [← decide_not, ← Bool.decide_and, decide_eq_decide]
      omega
    rw [hbefore, hrow] at hsplit
    rw [List.range_succ, List.flatMap_append, List.flatMap_singleton]
    exact (ih.append_right (c.row n)).trans hsplit

theorem nodup_keys_flatMap_row {c : Configuration} (hc : c.Legible) (n : Nat) :
    (Keyed.keys ((List.range n).flatMap c.row)).Nodup := by
  have hsub : (c.table.entries.filter fun e => decide (e.1.1 < n)).Sublist c.table.entries :=
    List.filter_sublist
  have hfew := hc.table.keys_nodup.sublist (hsub.map Prod.fst)
  exact ((perm_flatMap_row c n).map Prod.fst).nodup_iff.mpr hfew

/-- Sorting keeps all entries. -/
theorem perm_sortedTable {c : Configuration} (hc : c.Legible) :
    c.sortedTable.entries.Perm c.table.entries := by
  have hall : c.table.entries.filter (fun e => decide (e.1.1 < c.grammar.names.length)) =
      c.table.entries :=
    List.filter_eq_self.mpr fun e he => decide_eq_true (hc.wellFormed.hasEntry e he).registered
  have hperm := perm_flatMap_row c c.grammar.names.length
  rw [hall] at hperm
  exact hperm

/-- What stands in a cell is read back: the written production names the alternative. -/
theorem addCell_cell {c : Configuration} (hc : c.Legible)
    (hnames : ∀ name ∈ c.grammar.names, PlainName name) {e : Cell × Nat}
    (he : e ∈ c.table.entries) {t : ParsingTable} (hnew : e.1 ∉ Keyed.keys t.entries)
    (name : String) :
    addCell c.grammar name e.1.1 t (c.cell e) = .ok ⟨t.entries ++ [e]⟩ := by
  have hentry := hc.wellFormed.hasEntry e he
  obtain ⟨text, htext⟩ := hc.table.named e he
  obtain ⟨p, hp⟩ : ∃ p, c.grammar.production? e.1.1 e.2 = some p :=
    ⟨_, List.getElem?_eq_getElem hentry.alternative_lt⟩
  have hname := Grammar.nameOf?_eq hentry.registered
  have hplain := hnames _ (List.mem_of_getElem? hname)
  have hfound := Grammar.alternativeOf?_write hname hplain.no_arrow hplain.trim_eq htext hp
    (hc.wellFormed.grammar.fits hp).lhs_eq
  have hinsert : t.insert c.grammar e.1.1 e.1.2 e.2 = .ok ⟨t.entries ++ [e]⟩ := by
    rw [ParsingTable.insert_eq_ok_iff, hp, ← Keyed.put_of_not_mem_keys hnew]
    exact ⟨rfl, rfl⟩
  unfold addCell Configuration.cell
  simp only [readLookahead_spell c.grammar hentry.isLookahead, hp, Option.map_some,
    Option.getD_some]
  refine bind_eq_ok_iff.mpr ⟨e.1.2, rfl, bind_eq_ok_iff.mpr ⟨c.grammar.write p, rfl, ?_⟩⟩
  simp only [hfound, hinsert]

/-- A row is read back entry by entry. -/
theorem foldlM_addCell {c : Configuration} (hc : c.Legible)
    (hnames : ∀ name ∈ c.grammar.names, PlainName name) {nt : Nat} {es : List (Cell × Nat)}
    (hes : ∀ e ∈ es, e ∈ c.table.entries ∧ e.1.1 = nt) {t : ParsingTable}
    (hkeys : (Keyed.keys (t.entries ++ es)).Nodup) (name : String) :
    (es.map c.cell).foldlM (addCell c.grammar name nt) t = .ok ⟨t.entries ++ es⟩ := by
  induction es generalizing t with
  | nil => rw [List.append_nil]; rfl
  | cons e es ih =>
    obtain ⟨he, rfl⟩ := hes e List.mem_cons_self
    have hnew := Keyed.not_mem_keys_of_nodup hkeys
    have hcons : t.entries ++ e :: es = (t.entries ++ [e]) ++ es := by simp
    rw [hcons] at hkeys ⊢
    rw [List.map_cons, List.foldlM_cons, addCell_cell hc hnames he hnew]
    exact ih (fun e' he' => hes e' (List.mem_cons_of_mem e he')) (t := ⟨t.entries ++ [e]⟩) hkeys

/-- One row more is read into the table. -/
theorem addRow_row {c : Configuration} (hc : c.Legible)
    (hnames : ∀ name ∈ c.grammar.names, PlainName name) {nt : Nat}
    (hnt : nt < c.grammar.names.length) :
    addRow c.grammar ⟨(List.range nt).flatMap c.row⟩
        (c.grammar.nameOf nt, .object ((c.row nt).map c.cell)) =
      .ok ⟨(List.range (nt + 1)).flatMap c.row⟩ := by
  have hrows : (List.range (nt + 1)).flatMap c.row =
      (List.range nt).flatMap c.row ++ c.row nt := by
    rw [List.range_succ, List.flatMap_append, List.flatMap_singleton]
  have hkeys := nodup_keys_flatMap_row hc (nt + 1)
  rw [hrows] at hkeys ⊢
  have hes : ∀ e ∈ c.row nt, e ∈ c.table.entries ∧ e.1.1 = nt := by
    intro e he
    simpa [Configuration.row] using he
  unfold addRow
  simp only [Grammar.requireId_nameOf hc.wellFormed.grammar.names_nodup hnt]
  exact foldlM_addCell hc hnames hes (t := ⟨(List.range nt).flatMap c.row⟩) hkeys _

/-- The table is read back row by row. -/
theorem readTable_document {c : Configuration} (hc : c.Legible)
    (hnames : ∀ name ∈ c.grammar.names, PlainName name) :
    c.document.readTable c.grammar = .ok c.sortedTable := by
  obtain ⟨t, hread, ht⟩ := c.grammar.exists_foldlM_byName
    (v := fun nt => .object ((c.row nt).map c.cell)) (f := addRow c.grammar)
    (P := fun m t => t = ⟨(List.range m).flatMap c.row⟩)
    (fun nt hnt t ht => ⟨_, ht ▸ addRow_row hc hnames hnt, rfl⟩) (b := .empty) rfl
  rw [ht] at hread
  exact hread

/-! ## The configuration -/

/-- What is loaded from the document is the configuration, with its table sorted. -/
theorem configuration_document {c : Configuration} (hc : c.Legible)
    (hnames : ∀ name ∈ c.grammar.names, PlainName name) :
    c.document.configuration = .ok { c with table := c.sortedTable } := by
  have hg := hc.wellFormed.grammar.names_nodup
  have hempty : emptySpelling ∉ c.grammar.names := fun hmem => (hnames _ hmem).ne_emptySpelling rfl
  have hclosing : c.document.closing.mapM c.grammar.requireId = .ok c.closing := by
    have hlt := hc.wellFormed.closing_lt
    unfold Configuration.document
    cases hid : c.closing with
    | none => rfl
    | some id =>
      have hread := Grammar.requireId_nameOf hg (hlt id hid)
      simp only [Option.map_some, Option.mapM_some, hread]
      rfl
  unfold configuration
  simp only [readGrammar_document hc hempty]
  refine bind_eq_ok_iff.mpr ⟨c.grammar, rfl, ?_⟩
  refine bind_eq_ok_iff.mpr ⟨c.closing, hclosing, ?_⟩
  refine bind_eq_ok_iff.mpr ⟨c.sortedTable, readTable_document hc hnames, ?_⟩
  exact bind_eq_ok_iff.mpr ⟨c.sets, readSets_document hc, rfl⟩

/-- No map of the document has a key twice. -/
theorem distinct_document {c : Configuration} (hc : c.Legible) : c.document.Distinct := by
  have hg := hc.wellFormed.grammar.names_nodup
  constructor <;> exact (Grammar.keys_byName _ _).symm ▸ hg

/-- Lookaheads that are spelled the same are the same, so neither has a row of the table. -/
theorem nodup_keys_cells {c : Configuration} (hc : c.Legible) (nt : Nat) :
    (Keyed.keys ((c.row nt).map c.cell)).Nodup := by
  have hrow : (c.row nt).Nodup := (hc.table.keys_nodup.of_map _).filter _
  rw [Keyed.keys, List.map_map, List.nodup_map_iff_inj_on hrow]
  intro e he e' he' hspell
  obtain ⟨he, hnt⟩ := List.mem_filter.mp he
  obtain ⟨he', hnt'⟩ := List.mem_filter.mp he'
  have hlook : e.1.2 = e'.1.2 := by
    have hread := readLookahead_spell c.grammar (hc.wellFormed.hasEntry e he).isLookahead
    have hread' := readLookahead_spell c.grammar (hc.wellFormed.hasEntry e' he').isLookahead
    have hsame : c.grammar.spell e.1.2 = c.grammar.spell e'.1.2 := hspell
    rw [hsame, hread'] at hread
    exact (Except.ok.inj hread).symm
  have hcell : e.1 = e'.1 :=
    Prod.ext ((of_decide_eq_true hnt).trans (of_decide_eq_true hnt').symm) hlook
  exact List.inj_on_of_nodup_map hc.table.keys_nodup he he' hcell

theorem readable_spellings (g : Grammar) (xs : List Symbol) (levels : Nat) :
    (g.spellings xs).Readable (levels + 1) := by
  refine Value.readable_array fun v hv => ?_
  obtain ⟨x, _, rfl⟩ := List.mem_map.mp hv
  exact Value.readable_string levels (g.spell x)

/-- The document can be written as a text: its containers are three deep at most. -/
theorem readable_document {c : Configuration} (hc : c.Legible) : c.document.Readable := by
  refine ⟨distinct_document hc, ?_, ?_, ?_, ?_⟩
  · intro m hm
    obtain ⟨nt, _, rfl⟩ := List.mem_map.mp hm
    refine Value.readable_array fun v hv => ?_
    obtain ⟨p, _, rfl⟩ := List.mem_map.mp hv
    exact readable_spellings c.grammar p.rhs 123
  · intro m hm
    obtain ⟨nt, _, rfl⟩ := List.mem_map.mp hm
    exact readable_spellings c.grammar (c.sets.first nt) 124
  · intro m hm
    obtain ⟨nt, _, rfl⟩ := List.mem_map.mp hm
    exact readable_spellings c.grammar (c.sets.follow nt) 124
  · intro m hm
    obtain ⟨nt, _, rfl⟩ := List.mem_map.mp hm
    refine Value.readable_object (nodup_keys_cells hc nt) fun cell hcell => ?_
    obtain ⟨e, _, rfl⟩ := List.mem_map.mp hcell
    exact Value.readable_string 124 _

/-- A configuration that was loaded can be written as a document and loaded again, where no rule has
the name of the empty marker, an arrow in its name, or blanks around it. The grammar, the closing
non-terminal and the lists are the same, the table is as large, and each cell of it selects the same
alternative. So it is if the document is written as a text and read from there. -/
theorem a_written_configuration_loads_again {d : Document} {c : Configuration} (hd : d.Distinct)
    (hload : d.configuration = .ok c) (hkeys : ∀ key ∈ Keyed.keys d.rules, PlainName key) :
    ofText c.document.text = .ok c.document ∧
      ∃ c', c.document.configuration = .ok c' ∧
        Configuration.ofText c.document.text = .ok c' ∧
        c'.grammar = c.grammar ∧ c'.closing = c.closing ∧ c'.sets = c.sets ∧
        c'.table.size = c.table.size ∧
        ∀ nt x, c'.table.lookup nt x = c.table.lookup nt x := by
  have hc := legible_of_configuration hd hload
  have hnames := (wellFormed_of_configuration hd hload).2
  have htext := ofText_text (readable_document hc)
  have hagain := configuration_document hc (hnames ▸ hkeys)
  have hperm := perm_sortedTable hc
  refine ⟨htext, { c with table := c.sortedTable }, hagain, ?_, rfl, rfl, rfl, ?_, ?_⟩
  · unfold Configuration.ofText
    rw [htext]
    exact hagain
  · exact hperm.length_eq
  · intro nt x
    exact (Keyed.get?_eq_of_perm hperm.symm hc.table.keys_nodup (nt, x)).symm

/-- A name with a blank in it, an alternative that stands twice, one without symbols, and the arrow,
a blank and the dollar sign as characters; the rows of the table in another order. -/
def unruly : Document where
  name := "unruly"
  start := "S"
  closing := some "a b"
  rules := [
    ("a b", .array [.array [.string "x", .string "$"], .array [.string "x", .string "$"]]),
    ("S", .array [
      .array [.string "→", .string " ", .string "a b"],
      .array [.string "→", .string "$"],
      .array []])]
  first := [("S", .array [.string "→", .string "ε"])]
  follow := [("S", .array [.string "$"]), ("a b", .array [])]
  table := [
    ("S", .object [("→", .string "S→ →\t$"), ("$", .string " ε ")]),
    ("a b", .object [("x", .string "a b → x $")])]

/-- What is loaded from it. -/
def unrulyLoaded : Configuration where
  grammar := {
    name := "unruly"
    start := 1
    names := ["a b", "S"]
    rules := [
      [⟨0, [.terminal 'x', .terminal '$']⟩, ⟨0, [.terminal 'x', .terminal '$']⟩],
      [⟨1, [.terminal '→', .terminal ' ', .nonTerminal 0]⟩, ⟨1, [.terminal '→', .terminal '$']⟩,
        ⟨1, [.empty]⟩]] }
  table := ⟨[((1, .terminal '→'), 1), ((1, .endMark), 2), ((0, .terminal 'x'), 0)]⟩
  sets := ⟨[[], [.terminal '→', .empty]], [[], [.endMark]]⟩
  closing := some 0

/-- It is loaded, written and loaded again. -/
theorem an_unruly_document_is_read_back :
    unruly.Distinct ∧ unruly.configuration = .ok unrulyLoaded ∧
      (∀ key ∈ Keyed.keys unruly.rules, PlainName key) ∧
      ofText unrulyLoaded.document.text = .ok unrulyLoaded.document ∧
      ∃ c', unrulyLoaded.document.configuration = .ok c' ∧
        Configuration.ofText unrulyLoaded.document.text = .ok c' ∧
        c'.grammar = unrulyLoaded.grammar ∧ c'.closing = unrulyLoaded.closing ∧
        c'.sets = unrulyLoaded.sets ∧ c'.table.size = unrulyLoaded.table.size ∧
        ∀ nt x, c'.table.lookup nt x = unrulyLoaded.table.lookup nt x := by
  have hdistinct : unruly.Distinct := ⟨by decide, by decide, by decide, by decide⟩
  have hload : unruly.configuration = .ok unrulyLoaded := by rfl
  have hkeys : ∀ key ∈ Keyed.keys unruly.rules, PlainName key := by
    intro key hkey
    rcases List.mem_pair.mp hkey with rfl | rfl
    · exact ⟨by decide, by decide, by rfl⟩
    · exact ⟨by decide, by decide, by rfl⟩
  exact ⟨hdistinct, hload, hkeys, a_written_configuration_loads_again hdistinct hload hkeys⟩

end Document

end TopDown
