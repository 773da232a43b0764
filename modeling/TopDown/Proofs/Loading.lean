-- What everything that was loaded is like. Every rule key is a non-terminal with alternatives, their
-- symbols are registered or are characters that cannot be taken for anything else, and the table
-- has only cells that a run can come to and alternatives that are there.
import TopDown.Configuration.Load
import TopDown.Proofs.Derivation
import TopDown.Proofs.Reading

namespace TopDown

/-! ## Computations that may fail -/

section Attempts

variable {ε α β γ : Type}

theorem exists_of_isOk {m : Except ε α} (h : m.isOk = true) : ∃ a, m = .ok a := by
  cases m with
  | error e => cases h
  | ok a => exact ⟨a, rfl⟩

theorem bind_eq_ok_iff {m : Except ε α} {f : α → Except ε β} {b : β} :
    m >>= f = .ok b ↔ ∃ a, m = .ok a ∧ f a = .ok b := by
  cases m with
  | error e => simp [bind, Except.bind]
  | ok a => simp [bind, Except.bind]

theorem mapError_eq_ok_iff {ε' : Type} {m : Except ε α} {f : ε → ε'} {a : α} :
    m.mapError f = .ok a ↔ m = .ok a := by
  constructor
  · intro h
    cases m with
    | error e => cases h
    | ok b => exact congrArg Except.ok (Except.ok.inj h)
  · rintro rfl
    rfl

/-- What every turn of a fold keeps, the fold keeps. -/
theorem foldlM_keeps {P : β → Prop} {f : β → α → Except ε β}
    (hf : ∀ b x c, P b → f b x = .ok c → P c) {xs : List α} {b c : β} (hb : P b)
    (h : xs.foldlM f b = .ok c) : P c := by
  induction xs generalizing b with
  | nil =>
    cases h
    exact hb
  | cons x xs ih =>
    rw [List.foldlM_cons, bind_eq_ok_iff] at h
    obtain ⟨d, hd, h⟩ := h
    exact ih (hf b x d hb hd) h

theorem exists_of_mapM_eq_ok {f : α → Except ε β} {xs : List α} {ys : List β}
    (h : xs.mapM f = .ok ys) {y : β} (hy : y ∈ ys) : ∃ x ∈ xs, f x = .ok y := by
  induction xs generalizing ys with
  | nil =>
    cases h
    cases hy
  | cons x xs ih =>
    rw [List.mapM_cons, bind_eq_ok_iff] at h
    obtain ⟨z, hz, h⟩ := h
    rw [bind_eq_ok_iff] at h
    obtain ⟨zs, hzs, h⟩ := h
    cases h
    rcases List.mem_cons.mp hy with rfl | hy
    · exact ⟨x, List.mem_cons_self, hz⟩
    · obtain ⟨x', hx', hfx⟩ := ih hzs hy
      exact ⟨x', List.mem_cons_of_mem _ hx', hfx⟩

/-- Where each turn has a result, so has the whole list. -/
theorem mapM_eq_pure {m : Type → Type} [Monad m] [LawfulMonad m] {f : α → m β} {k : α → β}
    {xs : List α} (h : ∀ x ∈ xs, f x = pure (k x)) : xs.mapM f = pure (xs.map k) := by
  induction xs with
  | nil => exact List.mapM_nil
  | cons x xs ih =>
    have hxs := ih fun y hy => h y (List.mem_cons_of_mem x hy)
    rw [List.mapM_cons, h x List.mem_cons_self, hxs, pure_bind, pure_bind, List.map_cons]

theorem mapM_map_eq_ok {f : β → Except ε γ} {w : α → β} {u : α → γ} {xs : List α}
    (h : ∀ x ∈ xs, f (w x) = .ok (u x)) : (xs.map w).mapM f = .ok (xs.map u) := by
  rw [List.mapM_map]
  exact mapM_eq_pure h

end Attempts

/-! ## Well-formedness -/

/-- What a right-hand side can hold where these are the names of the non-terminals. -/
def Symbol.Fits (names : List String) : Symbol → Prop
  | .terminal c => c ≠ 'ε' ∧ c.toString ∉ names
  | .nonTerminal id => id < names.length
  | .empty => True
  | .endMark => False

/-- `p` is an alternative of `nt`, and all its symbols can be. -/
structure Production.Fits (names : List String) (nt : Nat) (p : Production) : Prop where
  registered : nt < names.length
  lhs_eq : p.lhs = nt
  rhs_ne_nil : p.rhs ≠ []
  rhs_fits : ∀ x ∈ p.rhs, x.Fits names

structure Grammar.WellFormed (g : Grammar) : Prop where
  names_nodup : g.names.Nodup
  start_lt : g.start < g.names.length
  productions_ne_nil : ∀ nt < g.names.length, g.productions nt ≠ []
  productions_fit : ∀ nt, ∀ p ∈ g.productions nt, p.Fits g.names nt

/-- What can be ahead in a table: the end mark, or a character other than its spelling. -/
def Symbol.IsLookahead : Symbol → Prop
  | .terminal c => c ≠ '$'
  | .endMark => True
  | .nonTerminal _ | .empty => False

/-- An alternative of the grammar under a lookahead. -/
structure Grammar.HasEntry (g : Grammar) (cell : Cell) (alternative : Nat) : Prop where
  registered : cell.1 < g.names.length
  isLookahead : cell.2.IsLookahead
  alternative_lt : alternative < (g.productions cell.1).length

structure Configuration.WellFormed (c : Configuration) : Prop where
  grammar : c.grammar.WellFormed
  closing_lt : ∀ id ∈ c.closing, id < c.grammar.names.length
  hasEntry : ∀ e ∈ c.table.entries, c.grammar.HasEntry e.1 e.2

theorem Grammar.WellFormed.fits {g : Grammar} (hg : g.WellFormed) {nt k : Nat} {p : Production}
    (hp : g.production? nt k = some p) : p.Fits g.names nt :=
  hg.productions_fit nt p (mem_productions_of_production? hp)

theorem Grammar.WellFormed.noEndMark {g : Grammar} (hg : g.WellFormed) : g.NoEndMark :=
  fun _ _ _ hp hmark => (hg.fits hp).rhs_fits _ hmark

/-- Nothing is under a symbol that cannot be ahead. -/
theorem Configuration.WellFormed.lookup_eq_none {c : Configuration} (hc : c.WellFormed) {nt : Nat}
    {x : Symbol} (hx : ¬ x.IsLookahead) : c.table.lookup nt x = none := by
  rw [Option.eq_none_iff_forall_not_mem]
  intro k hk
  exact hx (hc.hasEntry _ (Keyed.mem_of_get? hk)).isLookahead

/-! ## Spelled symbols -/

theorem eq_toString_of_singleChar? {s : String} {c : Char} (h : singleChar? s = some c) :
    s = c.toString := by
  unfold singleChar? at h
  split at h
  · next d hd =>
    cases h
    apply String.toList_inj.mp
    rw [hd]
    exact (String.toList_singleton c).symm
  · cases h

theorem Grammar.fits_of_readSymbol {g : Grammar} {s : String} {x : Symbol}
    (h : g.readSymbol s = .ok x) : x.Fits g.names := by
  unfold readSymbol at h
  split at h
  · next id hid =>
    cases h
    exact lt_of_idOf? hid
  · next hid =>
    split at h
    · cases h
      trivial
    · next hempty =>
      split at h
      · next c hc =>
        cases h
        have hs := eq_toString_of_singleChar? hc
        subst hs
        refine ⟨?_, idOf?_eq_none_iff.mp hid⟩
        rintro rfl
        exact hempty rfl
      · cases h

theorem isLookahead_of_readLookahead {s : String} {x : Symbol} (h : readLookahead s = .ok x) :
    x.IsLookahead := by
  unfold readLookahead at h
  split at h
  · cases h
    trivial
  · next hend =>
    split at h
    · next c hc =>
      cases h
      have hs := eq_toString_of_singleChar? hc
      subst hs
      rintro rfl
      exact hend rfl
    · cases h

theorem Grammar.idOf?_of_requireId {g : Grammar} {name : String} {id : Nat}
    (h : g.requireId name = .ok id) : g.idOf? name = some id := by
  unfold requireId at h
  split at h
  · next hid =>
    cases h
    exact hid
  · cases h

/-! ## Rules -/

/-- `h` is `g` with the alternatives `ps` of `lhs` after those that it had. -/
structure Grammar.Adds (g : Grammar) (lhs : Nat) (ps : List Production) (h : Grammar) : Prop where
  names_eq : h.names = g.names
  start_eq : h.start = g.start
  productions_eq : ∀ nt,
    h.productions nt = if lhs = nt then g.productions nt ++ ps else g.productions nt

namespace Grammar.Adds

variable {g h k : Grammar} {lhs : Nat} {ps qs : List Production}

theorem refl (g : Grammar) (lhs : Nat) : g.Adds lhs [] g := ⟨rfl, rfl, by simp⟩

theorem addProduction (g : Grammar) (lhs : Nat) (rhs : List Symbol) :
    g.Adds lhs [⟨lhs, if rhs.isEmpty then [.empty] else rhs⟩] (g.addProduction lhs rhs).2 :=
  ⟨rfl, rfl, fun nt => productions_addProduction g lhs nt rhs⟩

theorem trans (hps : g.Adds lhs ps h) (hqs : h.Adds lhs qs k) : g.Adds lhs (ps ++ qs) k := by
  refine ⟨hqs.names_eq.trans hps.names_eq, hqs.start_eq.trans hps.start_eq, fun nt => ?_⟩
  rw [hqs.productions_eq, hps.productions_eq]
  split
  · rw [List.append_assoc]
  · rfl

theorem productions_fit (hps : g.Adds lhs ps h) (hfit : ∀ p ∈ ps, p.Fits g.names lhs)
    (hg : ∀ nt, ∀ p ∈ g.productions nt, p.Fits g.names nt) :
    ∀ nt, ∀ p ∈ h.productions nt, p.Fits h.names nt := by
  intro nt p hp
  rw [hps.names_eq]
  rw [hps.productions_eq] at hp
  split at hp
  · next heq =>
    subst heq
    exact (List.mem_append.mp hp).elim (hg lhs p) (hfit p)
  · exact hg nt p hp

theorem productions_ne_nil (hps : g.Adds lhs ps h) {nt : Nat} (hnt : g.productions nt ≠ []) :
    h.productions nt ≠ [] := by
  rw [hps.productions_eq]
  split
  · exact List.append_ne_nil_of_left_ne_nil hnt ps
  · exact hnt

end Grammar.Adds

namespace Document

theorem fits_of_mapM {g : Grammar} {lhs : Nat} (hlhs : lhs < g.names.length)
    {spellings : List String} {rhs : List Symbol} (h : spellings.mapM g.readSymbol = .ok rhs) :
    (⟨lhs, if rhs.isEmpty then [.empty] else rhs⟩ : Production).Fits g.names lhs := by
  refine ⟨hlhs, rfl, ?_, ?_⟩
  · cases rhs <;> simp
  · intro x hx
    rcases rhs with _ | ⟨y, ys⟩
    · rw [List.mem_singleton.mp hx]
      trivial
    · obtain ⟨s, _, hs⟩ := exists_of_mapM_eq_ok h hx
      exact Grammar.fits_of_readSymbol hs

theorem adds_of_foldlM {lhs : Nat} {alternatives : List (List String)} {g h : Grammar}
    (hlhs : lhs < g.names.length)
    (hr : alternatives.foldlM (fun g spellings => do
      return (g.addProduction lhs (← spellings.mapM g.readSymbol)).2) g = Except.ok h) :
    ∃ ps, ps.length = alternatives.length ∧ (∀ p ∈ ps, p.Fits g.names lhs) ∧ g.Adds lhs ps h := by
  induction alternatives generalizing g with
  | nil =>
    cases hr
    exact ⟨[], rfl, by simp, .refl _ lhs⟩
  | cons spellings alternatives ih =>
    rw [List.foldlM_cons] at hr
    obtain ⟨d, hd, hr⟩ := bind_eq_ok_iff.mp hr
    obtain ⟨rhs, hrhs, hd⟩ := bind_eq_ok_iff.mp hd
    cases hd
    obtain ⟨ps, hlen, hfit, hadds⟩ := ih (g := (g.addProduction lhs rhs).2) hlhs hr
    refine ⟨_ :: ps, by rw [List.length_cons, hlen, List.length_cons], ?_,
      (Grammar.Adds.addProduction g lhs rhs).trans hadds⟩
    intro p hp
    rcases List.mem_cons.mp hp with rfl | hp
    · exact fits_of_mapM hlhs hrhs
    · exact hfit p hp

/-- Reading a rule adds alternatives to the non-terminal of its key, at least one. -/
theorem adds_of_addRule {g h : Grammar} {rule : String × Json.Value}
    (hr : addRule g rule = .ok h) :
    ∃ lhs ps, g.idOf? rule.1 = some lhs ∧ ps ≠ [] ∧ (∀ p ∈ ps, p.Fits g.names lhs) ∧
      g.Adds lhs ps h := by
  unfold addRule at hr
  obtain ⟨lhs, hlhs, hr⟩ := bind_eq_ok_iff.mp hr
  obtain ⟨alternatives, _, hr⟩ := bind_eq_ok_iff.mp hr
  split at hr
  · cases hr
  · next hne =>
    have hid := Grammar.idOf?_of_requireId hlhs
    obtain ⟨ps, hlen, hfit, hadds⟩ := adds_of_foldlM (Grammar.lt_of_idOf? hid) hr
    refine ⟨lhs, ps, hid, ?_, hfit, hadds⟩
    rintro rfl
    exact hne (List.isEmpty_iff_length_eq_zero.mpr hlen.symm)

/-- Reading rules leaves the names and the start symbol, and adds nothing that does not fit. -/
theorem fits_of_addRules {rules : List (String × Json.Value)} {g h : Grammar}
    (hg : ∀ nt, ∀ p ∈ g.productions nt, p.Fits g.names nt) (hr : rules.foldlM addRule g = .ok h) :
    h.names = g.names ∧ h.start = g.start ∧ ∀ nt, ∀ p ∈ h.productions nt, p.Fits h.names nt := by
  refine foldlM_keeps (P := fun k => k.names = g.names ∧ k.start = g.start ∧
    ∀ nt, ∀ p ∈ k.productions nt, p.Fits k.names nt) ?_ ⟨rfl, rfl, hg⟩ hr
  rintro k rule l ⟨hnames, hstart, hfits⟩ hl
  obtain ⟨lhs, ps, _, _, hps, hadds⟩ := adds_of_addRule hl
  exact ⟨hadds.names_eq.trans hnames, hadds.start_eq.trans hstart, hadds.productions_fit hps hfits⟩

theorem productions_ne_nil_of_addRules {rules : List (String × Json.Value)} {g h : Grammar}
    (hr : rules.foldlM addRule g = .ok h) {nt : Nat}
    (hnt : g.productions nt ≠ [] ∨ ∃ rule ∈ rules, g.idOf? rule.1 = some nt) :
    h.productions nt ≠ [] := by
  induction rules generalizing g with
  | nil =>
    cases hr
    simpa using hnt
  | cons rule rules ih =>
    rw [List.foldlM_cons] at hr
    obtain ⟨d, hd, hr⟩ := bind_eq_ok_iff.mp hr
    obtain ⟨lhs, ps, hid, hne, _, hadds⟩ := adds_of_addRule hd
    -- The rules after this one only append, so what it added stays.
    refine ih hr ?_
    rcases hnt with hnt | ⟨other, hmem, hother⟩
    · exact .inl (hadds.productions_ne_nil hnt)
    rcases List.mem_cons.mp hmem with rfl | hmem
    · rw [hid] at hother
      cases hother
      rw [hadds.productions_eq, if_pos rfl]
      exact .inl (List.append_ne_nil_of_right_ne_nil _ hne)
    · refine .inr ⟨other, hmem, ?_⟩
      rw [Grammar.idOf?, hadds.names_eq]
      exact hother

/-! ## Names -/

theorem productions_declared (d : Document) (nt : Nat) : d.declared.productions nt = [] := by
  unfold declared
  suffices h : ∀ g : Grammar, g.productions nt = [] →
      (d.rules.foldl (fun g rule => (g.addNonTerminal rule.1).2) g).productions nt = [] from
    h _ (by simp [Grammar.new, Grammar.productions, Rows.row])
  induction d.rules with
  | nil => exact fun _ h => h
  | cons rule rules ih =>
    intro g hg
    exact ih _ (by rw [Grammar.productions_addNonTerminal, hg])

/-- The names are the rule keys in order. -/
theorem names_declared {d : Document} (hd : (Keyed.keys d.rules).Nodup) :
    d.declared.names = Keyed.keys d.rules := by
  unfold declared
  suffices h : ∀ g : Grammar, (g.names ++ Keyed.keys d.rules).Nodup →
      (d.rules.foldl (fun g rule => (g.addNonTerminal rule.1).2) g).names =
        g.names ++ Keyed.keys d.rules from
    h (Grammar.new d.name) hd
  induction d.rules with
  | nil => exact fun g _ => (List.append_nil _).symm
  | cons rule rules ih =>
    intro g hg
    -- The names so far and the keys ahead are distinct, so each key is new when its turn comes.
    have hnew : rule.1 ∉ g.names := fun hmem =>
      (List.nodup_append.mp hg).2.2 _ hmem _ List.mem_cons_self rfl
    have hnames := Grammar.names_addNonTerminal_of_not_mem hnew
    have hcons : (g.addNonTerminal rule.1).2.names ++ Keyed.keys rules =
        g.names ++ Keyed.keys (rule :: rules) := by
      rw [hnames, List.append_assoc]
      rfl
    rw [List.foldl_cons, ← hcons]
    exact ih _ (hcons ▸ hg)

theorem wellFormed_of_readGrammar {d : Document} {g : Grammar} (hd : (Keyed.keys d.rules).Nodup)
    (h : d.readGrammar = .ok g) : g.WellFormed ∧ g.names = Keyed.keys d.rules := by
  unfold readGrammar at h
  simp only at h
  split at h
  · cases h
  · next start hstart =>
    have hkeys := names_declared hd
    have hnil : ∀ nt, ({ d.declared with start } : Grammar).productions nt = [] :=
      productions_declared d
    obtain ⟨hnames, hstart', hfits⟩ := fits_of_addRules (fun nt p hp => by
      rw [hnil] at hp
      cases hp) h
    simp only [hkeys] at hnames
    refine ⟨⟨?_, ?_, ?_, hfits⟩, hnames⟩
    · rw [hnames]
      exact hd
    · rw [hstart', hnames, ← hkeys]
      exact Grammar.lt_of_idOf? hstart
    · intro nt hnt
      rw [hnames] at hnt
      obtain ⟨rule, hrule, hkey⟩ := List.mem_map.mp (List.getElem_mem hnt)
      refine productions_ne_nil_of_addRules h (.inr ⟨rule, hrule, ?_⟩)
      refine Grammar.idOf?_of_nameOf? (hkeys ▸ hd) ?_
      rw [Grammar.nameOf?, hkeys, hkey]
      exact List.getElem?_eq_getElem hnt

/-! ## The table -/

theorem hasEntry_of_addRow {g : Grammar} {t u : ParsingTable} {row : String × Json.Value}
    (ht : ∀ e ∈ t.entries, g.HasEntry e.1 e.2) (h : addRow g t row = .ok u) :
    ∀ e ∈ u.entries, g.HasEntry e.1 e.2 := by
  unfold addRow at h
  obtain ⟨nt, hnt, h⟩ := bind_eq_ok_iff.mp h
  obtain ⟨cells, _, h⟩ := bind_eq_ok_iff.mp h
  refine foldlM_keeps (P := fun v => ∀ e ∈ v.entries, g.HasEntry e.1 e.2) ?_ ht h
  intro v cell v' hv hcell
  unfold addCell at hcell
  obtain ⟨lookahead, hlookahead, hcell⟩ := bind_eq_ok_iff.mp hcell
  obtain ⟨text, _, hcell⟩ := bind_eq_ok_iff.mp hcell
  split at hcell
  · next alternative _ =>
    obtain ⟨hsome, rfl⟩ := (ParsingTable.insert_eq_ok_iff _ _ _ _ _ _).mp hcell
    intro e he
    rcases Keyed.mem_of_mem_put he with rfl | he
    · exact ⟨Grammar.lt_of_idOf? (Grammar.idOf?_of_requireId hnt),
        isLookahead_of_readLookahead hlookahead, by simpa [Grammar.production?] using hsome⟩
    · exact hv e he
  · cases hcell

theorem hasEntry_of_readTable {d : Document} {g : Grammar} {t : ParsingTable}
    (h : d.readTable g = .ok t) : ∀ e ∈ t.entries, g.HasEntry e.1 e.2 :=
  foldlM_keeps (P := fun u => ∀ e ∈ u.entries, g.HasEntry e.1 e.2)
    (fun _ _ _ ht hrow => hasEntry_of_addRow ht hrow) (by simp [ParsingTable.empty]) h

/-! ## Configurations -/

/-- What a document describes is well formed, and its names are the rule keys in order. -/
theorem wellFormed_of_configuration {d : Document} {c : Configuration} (hd : d.Distinct)
    (h : d.configuration = .ok c) : c.WellFormed ∧ c.grammar.names = Keyed.keys d.rules := by
  unfold configuration at h
  obtain ⟨grammar, hgrammar, h⟩ := bind_eq_ok_iff.mp h
  obtain ⟨closing, hclosing, h⟩ := bind_eq_ok_iff.mp h
  obtain ⟨table, htable, h⟩ := bind_eq_ok_iff.mp h
  obtain ⟨sets, _, h⟩ := bind_eq_ok_iff.mp h
  cases h
  obtain ⟨hwf, hnames⟩ := wellFormed_of_readGrammar hd.rules hgrammar
  refine ⟨⟨hwf, ?_, hasEntry_of_readTable htable⟩, hnames⟩
  rintro id ⟨⟩
  cases hname : d.closing with
  | none =>
    rw [hname] at hclosing
    cases hclosing
  | some name =>
    rw [hname] at hclosing
    obtain ⟨id', hid, hclosing⟩ := bind_eq_ok_iff.mp hclosing
    cases hclosing
    exact Grammar.lt_of_idOf? (Grammar.idOf?_of_requireId hid)

end Document

namespace Configuration

theorem exists_document_of_ofText {s : String} {c : Configuration} (h : ofText s = .ok c) :
    ∃ d : Document, Document.ofText s = .ok d ∧ d.configuration = .ok c := by
  obtain ⟨d, hd, h⟩ := bind_eq_ok_iff.mp h
  exact ⟨d, mapError_eq_ok_iff.mp hd, h⟩

theorem wellFormed_of_ofText {s : String} {c : Configuration} (h : ofText s = .ok c) :
    c.WellFormed := by
  obtain ⟨d, hd, hc⟩ := exists_document_of_ofText h
  exact (Document.wellFormed_of_configuration (Document.distinct_of_ofText hd) hc).1

/-- No loaded grammar holds the end mark. -/
theorem noEndMark_of_ofText {s : String} {c : Configuration} (h : ofText s = .ok c) :
    c.grammar.NoEndMark := (wellFormed_of_ofText h).grammar.noEndMark

end Configuration

end TopDown
