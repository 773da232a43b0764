-- What was loaded can be written. Every non-terminal has its rows and no other number has one, the
-- lists hold only what a list can spell, and each cell of the table has one entry, whose alternative
-- some text has named.
import TopDown.Proofs.Spellings

namespace TopDown

open Json (Value)

/-- The rows of `n` non-terminals, of which each symbol can be spelled. -/
structure SymbolSets.Legible (s : SymbolSets) (n : Nat) : Prop where
  length_first : s.firstRows.length = n
  length_follow : s.followRows.length = n
  isMember_first : ∀ nt, ∀ x ∈ s.first nt, x.IsMember
  isMember_follow : ∀ nt, ∀ x ∈ s.follow nt, x.IsMember

/-- One entry for a cell, with an alternative that a text can name. -/
structure ParsingTable.Legible (t : ParsingTable) (g : Grammar) : Prop where
  keys_nodup : (Keyed.keys t.entries).Nodup
  named : ∀ e ∈ t.entries, ∃ text, g.alternativeOf? e.1.1 text = some e.2

structure Configuration.Legible (c : Configuration) : Prop where
  wellFormed : c.WellFormed
  length_rules : c.grammar.rules.length = c.grammar.names.length
  sets : c.sets.Legible c.grammar.names.length
  table : c.table.Legible c.grammar

/-! ## Rules -/

/-- The grammar has the name of the document and one row of alternatives for each non-terminal. -/
structure Document.Outlines (d : Document) (g : Grammar) : Prop where
  name_eq : g.name = d.name
  length_rules : g.rules.length = g.names.length

namespace Document

theorem Outlines.addNonTerminal {d : Document} {g : Grammar} (h : d.Outlines g) (name : String) :
    d.Outlines (g.addNonTerminal name).2 := by
  have hlen := h.length_rules
  unfold Grammar.addNonTerminal Grammar.intern
  cases hid : g.idOf? name with
  | some id =>
    have hlt := Grammar.lt_of_idOf? hid
    refine ⟨h.name_eq, ?_⟩
    simp only [Rows.length_grow]
    omega
  | none =>
    refine ⟨h.name_eq, ?_⟩
    simp only [Rows.length_grow, List.length_append, List.length_singleton]
    omega

theorem outlines_declared (d : Document) : d.Outlines d.declared := by
  unfold declared
  suffices h : ∀ g : Grammar, d.Outlines g →
      d.Outlines (d.rules.foldl (fun g rule => (g.addNonTerminal rule.1).2) g) from h _ ⟨rfl, rfl⟩
  induction d.rules with
  | nil => exact fun _ h => h
  | cons rule rules ih => exact fun g h => ih _ (h.addNonTerminal rule.1)

/-- Alternatives go into the row that is there for them. -/
theorem Outlines.addRule {d : Document} {g h : Grammar} {rule : String × Value} (hg : d.Outlines g)
    (hr : addRule g rule = .ok h) : d.Outlines h := by
  unfold Document.addRule at hr
  obtain ⟨lhs, hlhs, hr⟩ := bind_eq_ok_iff.mp hr
  obtain ⟨alternatives, _, hr⟩ := bind_eq_ok_iff.mp hr
  have hlen := hg.length_rules
  have hlt := Grammar.lt_of_idOf? (Grammar.idOf?_of_requireId hlhs)
  split at hr
  · cases hr
  · have hkept : d.Outlines h ∧ h.names = g.names := by
      refine foldlM_keeps (P := fun k => d.Outlines k ∧ k.names = g.names) ?_ ⟨hg, rfl⟩ hr
      rintro k spellings l ⟨hk, hnames⟩ hl
      obtain ⟨rhs, _, hl⟩ := bind_eq_ok_iff.mp hl
      cases hl
      have hlenk := hk.length_rules
      rw [hnames] at hlenk
      refine ⟨⟨hk.name_eq, ?_⟩, hnames⟩
      simp only [Grammar.addProduction, Rows.push, Rows.length_put, hnames]
      omega
    exact hkept.1

theorem outlines_of_readGrammar {d : Document} {g : Grammar} (h : d.readGrammar = .ok g) :
    d.Outlines g := by
  unfold readGrammar at h
  simp only at h
  split at h
  · cases h
  · next start _ =>
    have hd : d.Outlines { d.declared with start } :=
      ⟨(outlines_declared d).name_eq, (outlines_declared d).length_rules⟩
    exact foldlM_keeps (P := fun k => d.Outlines k) (fun _ _ _ hk hl => hk.addRule hl) hd h

end Document

/-! ## Lists -/

theorem isMember_of_readSet {v : Value} {xs : List Symbol} (h : Document.readSet v = .ok xs) :
    ∀ x ∈ xs, x.IsMember := by
  intro x hx
  obtain ⟨items, _, h⟩ := bind_eq_ok_iff.mp h
  obtain ⟨m, _, hm⟩ := exists_of_mapM_eq_ok h hx
  obtain ⟨s, _, hs⟩ := bind_eq_ok_iff.mp hm
  exact isMember_of_readMember hs

namespace SymbolSets

variable {s : SymbolSets} {n nt : Nat} {xs : List Symbol}

theorem legible_new (n : Nat) : (new n).Legible n := by
  have hlen : (Rows.grow n ([] : List (List Symbol))).length = n := by
    rw [Rows.length_grow, List.length_nil, Nat.zero_max]
  have hnil : ∀ nt, Rows.row (Rows.grow n ([] : List (List Symbol))) nt = [] := by
    intro nt
    rw [Rows.row_grow]
    rfl
  refine ⟨hlen, hlen, fun nt x hx => ?_, fun nt x hx => ?_⟩
  · rw [first, new, hnil] at hx
    cases hx
  · rw [follow, new, hnil] at hx
    cases hx

theorem Legible.setFirst (hs : s.Legible n) (hnt : nt < n) (hxs : ∀ x ∈ xs, x.IsMember) :
    (s.setFirst nt xs).Legible n := by
  have hlen := hs.length_first
  refine ⟨?_, hs.length_follow, fun nt' => ?_, hs.isMember_follow⟩
  · rw [SymbolSets.setFirst, Rows.length_put]
    omega
  · rw [first_setFirst]
    split
    · exact hxs
    · exact hs.isMember_first nt'

theorem Legible.setFollow (hs : s.Legible n) (hnt : nt < n) (hxs : ∀ x ∈ xs, x.IsMember) :
    (s.setFollow nt xs).Legible n := by
  have hlen := hs.length_follow
  refine ⟨hs.length_first, ?_, hs.isMember_first, fun nt' => ?_⟩
  · rw [SymbolSets.setFollow, Rows.length_put]
    omega
  · rw [follow_setFollow]
    split
    · exact hxs
    · exact hs.isMember_follow nt'

end SymbolSets

theorem Document.legible_of_readSets {d : Document} {g : Grammar} {s : SymbolSets}
    (h : d.readSets g = .ok s) : s.Legible g.names.length := by
  obtain ⟨s₁, hfirst, hfollow⟩ := bind_eq_ok_iff.mp h
  have hs₁ : s₁.Legible g.names.length := by
    refine foldlM_keeps (P := fun t => t.Legible g.names.length) ?_ (SymbolSets.legible_new _) hfirst
    intro t entry u ht hu
    obtain ⟨nt, hnt, hu⟩ := bind_eq_ok_iff.mp hu
    obtain ⟨xs, hxs, hu⟩ := bind_eq_ok_iff.mp hu
    cases hu
    exact ht.setFirst (Grammar.lt_of_idOf? (Grammar.idOf?_of_requireId hnt))
      (isMember_of_readSet hxs)
  refine foldlM_keeps (P := fun t => t.Legible g.names.length) ?_ hs₁ hfollow
  intro t entry u ht hu
  obtain ⟨nt, hnt, hu⟩ := bind_eq_ok_iff.mp hu
  obtain ⟨xs, hxs, hu⟩ := bind_eq_ok_iff.mp hu
  cases hu
  exact ht.setFollow (Grammar.lt_of_idOf? (Grammar.idOf?_of_requireId hnt))
    (isMember_of_readSet hxs)

/-! ## The table -/

theorem ParsingTable.Legible.addRow {g : Grammar} {t u : ParsingTable} {row : String × Value}
    (ht : t.Legible g) (h : Document.addRow g t row = .ok u) : u.Legible g := by
  unfold Document.addRow at h
  obtain ⟨nt, _, h⟩ := bind_eq_ok_iff.mp h
  obtain ⟨cells, _, h⟩ := bind_eq_ok_iff.mp h
  refine foldlM_keeps (P := fun v => v.Legible g) ?_ ht h
  intro v cell v' hv hcell
  unfold Document.addCell at hcell
  obtain ⟨lookahead, _, hcell⟩ := bind_eq_ok_iff.mp hcell
  obtain ⟨text, _, hcell⟩ := bind_eq_ok_iff.mp hcell
  split at hcell
  · next k hk =>
    obtain ⟨_, rfl⟩ := (ParsingTable.insert_eq_ok_iff _ _ _ _ _ _).mp hcell
    refine ⟨Keyed.nodup_keys_put _ _ hv.keys_nodup, ?_⟩
    intro e he
    rcases Keyed.mem_of_mem_put he with rfl | he
    · exact ⟨text, hk⟩
    · exact hv.named e he
  · cases hcell

theorem Document.legible_of_readTable {d : Document} {g : Grammar} {t : ParsingTable}
    (h : d.readTable g = .ok t) : t.Legible g :=
  foldlM_keeps (P := fun u => u.Legible g) (fun _ _ _ hu hrow => hu.addRow hrow)
    ⟨List.nodup_nil, by simp [ParsingTable.empty]⟩ h

/-! ## Configurations -/

/-- What a document describes can be written. -/
theorem Document.legible_of_configuration {d : Document} {c : Configuration} (hd : d.Distinct)
    (h : d.configuration = .ok c) : c.Legible := by
  have hwf := (wellFormed_of_configuration hd h).1
  unfold configuration at h
  obtain ⟨grammar, hgrammar, h⟩ := bind_eq_ok_iff.mp h
  obtain ⟨closing, _, h⟩ := bind_eq_ok_iff.mp h
  obtain ⟨table, htable, h⟩ := bind_eq_ok_iff.mp h
  obtain ⟨sets, hsets, h⟩ := bind_eq_ok_iff.mp h
  cases h
  exact ⟨hwf, (outlines_of_readGrammar hgrammar).length_rules, legible_of_readSets hsets,
    legible_of_readTable htable⟩

end TopDown
