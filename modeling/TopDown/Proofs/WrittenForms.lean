-- However the text of a table entry is written, as a right-hand side alone or with the name and the
-- arrow before it and with whatever blanks, it means the same alternative: the first one with the
-- symbols that its words spell. No other right-hand side has that spelling.
import TopDown.Proofs.Trimming

namespace TopDown

namespace Grammar

variable {g : Grammar} {nt k : Nat}

/-! ## The first alternative -/

/-- The right-hand side of this alternative has the property, and none of those before it has. -/
structure ComesFirst (g : Grammar) (nt : Nat) (P : List Symbol → Prop) (k : Nat) : Prop where
  exists_production : ∃ p, g.production? nt k = some p ∧ P p.rhs
  le : ∀ {j p}, g.production? nt j = some p → P p.rhs → k ≤ j

/-- The symbols have these words as their spellings. -/
def HasSpelling (g : Grammar) (ws : List String) (rhs : List Symbol) : Prop := rhs.map g.spell = ws

/-- Words find the first alternative that they spell. -/
theorem spelledBy?_eq_some_iff {ws : List String} :
    g.spelledBy? nt ws = some k ↔ g.ComesFirst nt (g.HasSpelling ws) k := by
  unfold spelledBy?
  rw [List.findIdx?_eq_some_iff_getElem]
  constructor
  · rintro ⟨hk, hspelled, hbefore⟩
    refine ⟨⟨_, List.getElem?_eq_getElem hk, eq_of_beq hspelled⟩, fun {j p} hp hspells => ?_⟩
    by_contra hlt
    obtain ⟨hj, rfl⟩ := List.getElem?_eq_some_iff.mp hp
    exact hbefore j (by omega) (beq_iff_eq.mpr hspells)
  · rintro ⟨⟨p, hp, hspells⟩, hle⟩
    obtain ⟨hk, rfl⟩ := List.getElem?_eq_some_iff.mp hp
    refine ⟨hk, beq_iff_eq.mpr hspells, fun j hj hspelled => ?_⟩
    have hkj := hle (List.getElem?_eq_getElem (by omega)) (eq_of_beq hspelled)
    omega

/-- Some alternative with a property is the first. -/
theorem exists_comesFirst {P : List Symbol → Prop} {p : Production}
    (hp : g.production? nt k = some p) (h : P p.rhs) : ∃ j, g.ComesFirst nt P j := by
  classical
  have hex : ∃ j, ∃ q, g.production? nt j = some q ∧ P q.rhs := ⟨k, p, hp, h⟩
  exact ⟨Nat.find hex, Nat.find_spec hex, fun hq hP => Nat.find_min' hex ⟨_, hq, hP⟩⟩

/-! ## Right-hand sides of one spelling -/

/-- Alternatives of a well-formed grammar that are spelled alike have the same symbols. -/
theorem WellFormed.rhs_eq_of_hasSpelling (hg : g.WellFormed) (hempty : emptySpelling ∉ g.names)
    {ws : List String} {j : Nat} {p q : Production} (hp : g.production? nt j = some p)
    (hq : g.production? nt k = some q) (hpws : g.HasSpelling ws p.rhs)
    (hqws : g.HasSpelling ws q.rhs) : p.rhs = q.rhs :=
  eq_of_map_spell_eq hg.names_nodup hempty (hg.fits hp).rhs_fits (hg.fits hq).rhs_fits
    (hpws.trans hqws.symm)

/-- The words of an alternative find the first one with its symbols. -/
theorem WellFormed.exists_spelledBy? (hg : g.WellFormed) (hempty : emptySpelling ∉ g.names)
    {p : Production} (hp : g.production? nt k = some p) :
    ∃ j, g.spelledBy? nt (p.rhs.map g.spell) = some j ∧ g.ComesFirst nt (· = p.rhs) j := by
  obtain ⟨j, hj⟩ := exists_comesFirst (P := g.HasSpelling (p.rhs.map g.spell)) hp rfl
  refine ⟨j, spelledBy?_eq_some_iff.mpr hj, ?_, fun hq hrhs => hj.le hq ?_⟩
  · obtain ⟨q, hq, hspells⟩ := hj.exists_production
    exact ⟨q, hq, hg.rhs_eq_of_hasSpelling hempty hq hp hspells rfl⟩
  · rw [HasSpelling, hrhs]

end Grammar

/-! ## All the forms of a text -/

/-- Where the name of a non-terminal has no arrow in it and no blanks around it, a text without an
arrow means the first alternative that its words spell. Other blanks between the words change
nothing, nor do the name and an arrow before them. All alternatives of that spelling have the same
symbols. After another name nothing is found. An alternative whose symbols can be words means, when
it is written out, the first one like it. -/
theorem an_alternative_is_found_however_it_is_written {c : Configuration} (hc : c.Loaded)
    (hempty : emptySpelling ∉ c.grammar.names) {nt : Nat} {name : String}
    (hname : c.grammar.nameOf? nt = some name) (harrow : arrow ∉ name.toList)
    (htrim : Text.trim name = name) :
    (∀ text, arrow ∉ text.toList →
      (∀ right, Text.IsSpaced (Text.words text) right →
        c.grammar.alternativeOf? nt right = c.grammar.alternativeOf? nt text ∧
        ∀ before behind, Text.IsBlank before → Text.IsBlank behind →
          c.grammar.alternativeOf? nt (before ++ name ++ behind ++ arrow.toString ++ right) =
            c.grammar.alternativeOf? nt text) ∧
      (∀ left, arrow ∉ left.toList → Text.trim left ≠ name →
        c.grammar.alternativeOf? nt (left ++ arrow.toString ++ text) = none) ∧
      (∀ k, c.grammar.alternativeOf? nt text = some k ↔
        c.grammar.ComesFirst nt (c.grammar.HasSpelling (Text.words text)) k) ∧
      ∀ k q, c.grammar.alternativeOf? nt text = some k → c.grammar.production? nt k = some q →
        ∀ j p, c.grammar.production? nt j = some p →
          c.grammar.HasSpelling (Text.words text) p.rhs → p.rhs = q.rhs) ∧
    ∀ k p, c.grammar.production? nt k = some p →
      (∀ x ∈ p.rhs, Text.IsWord (c.grammar.spell x)) →
      ∃ j, c.grammar.alternativeOf? nt (c.grammar.write p) = some j ∧
        c.grammar.ComesFirst nt (· = p.rhs) j := by
  have hg := hc.legible.wellFormed.grammar
  refine ⟨fun text htext => ?_, fun k p hp hwords => ?_⟩
  · have hshort : c.grammar.alternativeOf? nt text = c.grammar.spelledBy? nt (Text.words text) :=
      Grammar.alternativeOf?_of_not_mem htext
    have hfirst : ∀ k, c.grammar.alternativeOf? nt text = some k ↔
        c.grammar.ComesFirst nt (c.grammar.HasSpelling (Text.words text)) k := by
      intro k
      rw [hshort, Grammar.spelledBy?_eq_some_iff]
    refine ⟨fun right hright => ?_, fun left hleft hother => ?_, hfirst,
      fun k q hk hq j p hp hspells => ?_⟩
    · have hnone : arrow ∉ right.toList := by rwa [hright.mem_iff Grammar.isBlank_arrow]
      rw [hshort, ← Text.words_eq_iff.mpr hright]
      exact ⟨Grammar.alternativeOf?_of_not_mem hnone, fun before behind hbefore hbehind =>
        Grammar.alternativeOf?_after_name hname harrow htrim hbefore hbehind right⟩
    · rw [Grammar.alternativeOf?_append_arrow hleft, hname, if_neg]
      intro heq
      exact hother (Option.some.inj heq).symm
    · obtain ⟨q', hq', hspells'⟩ := ((hfirst k).mp hk).exists_production
      obtain rfl : q' = q := Option.some.inj (hq'.symm.trans hq)
      exact hg.rhs_eq_of_hasSpelling hempty hp hq hspells hspells'
  · have hws : ∀ w ∈ p.rhs.map c.grammar.spell, Text.IsWord w := by
      intro w hw
      obtain ⟨x, hx, rfl⟩ := List.mem_map.mp hw
      exact hwords x hx
    rw [Grammar.write, (hg.fits hp).lhs_eq, Grammar.alternativeOf?_ruleLine hname harrow htrim,
      Grammar.spellAll, Text.words_intercalate hws]
    exact hg.exists_spelledBy? hempty hp

/-- `S → a →`, `S → T a` and `S → a →` once more, and `T → b`. -/
def arrowed : Configuration where
  grammar := ⟨"g", 0, ["S", "T"],
    [[⟨0, [.terminal 'a', .terminal '→']⟩, ⟨0, [.nonTerminal 1, .terminal 'a']⟩,
      ⟨0, [.terminal 'a', .terminal '→']⟩], [⟨1, [.terminal 'b']⟩]]⟩
  table := ⟨[]⟩
  sets := ⟨[[], []], [[], []]⟩
  closing := none

def arrowedText : String :=
  "\x7b\"name\":\"g\",\"start\":\"S\",\"rules\":" ++
    "\x7b\"S\":[[\"a\",\"→\"],[\"T\",\"a\"],[\"a\",\"→\"]],\"T\":[[\"b\"]]\x7d," ++
    "\"table\":\x7b\x7d\x7d"

/-- The second alternative with its name, its arrow and odd blanks, or with another name, and the
third as it is written: the arrow that it ends with does not divide it. -/
theorem the_arrows_of_arrowed_are_told_apart :
    arrowed.Loaded ∧ emptySpelling ∉ arrowed.grammar.names ∧
      arrowed.grammar.nameOf? 0 = some "S" ∧ arrow ∉ "S".toList ∧ Text.trim "S" = "S" ∧
      arrowed.grammar.alternativeOf? 0 "T a" = some 1 ∧
      arrowed.grammar.alternativeOf? 0 "\tT\u00a0 a" = some 1 ∧
      arrowed.grammar.alternativeOf? 0 " S\u2003→\tT\u00a0 a" = some 1 ∧
      arrowed.grammar.alternativeOf? 0 "T→T a" = none ∧
      arrowed.grammar.write ⟨0, [.terminal 'a', .terminal '→']⟩ = "S → a →" ∧
      arrowed.grammar.alternativeOf? 0 "S → a →" = some 0 := by
  have hloaded : arrowed.Loaded := .inl ⟨arrowedText, by cbv⟩
  have hempty : emptySpelling ∉ arrowed.grammar.names := by decide
  have hname : arrowed.grammar.nameOf? 0 = some "S" := rfl
  have harrow : arrow ∉ "S".toList := by decide
  have htrim : Text.trim "S" = "S" := by decide
  obtain ⟨hforms, hwritten⟩ := an_alternative_is_found_however_it_is_written hloaded hempty hname
    harrow htrim
  obtain ⟨hsame, hother, _, _⟩ := hforms "T a" (by decide)
  have hshort : arrowed.grammar.alternativeOf? 0 "T a" = some 1 := by decide
  obtain ⟨hspaced, hfull⟩ := hsame "\tT\u00a0 a" (Text.words_eq_iff.mp (by decide))
  have hwrite : arrowed.grammar.write ⟨0, [.terminal 'a', .terminal '→']⟩ = "S → a →" := by decide
  obtain ⟨j, hj, hfirst⟩ := hwritten 2 ⟨0, [.terminal 'a', .terminal '→']⟩ rfl (by decide)
  have hzero : j = 0 := Nat.le_zero.mp (hfirst.le (j := 0) rfl rfl)
  rw [hzero, hwrite] at hj
  refine ⟨hloaded, hempty, hname, harrow, htrim, hshort, hspaced.trans hshort, ?_,
    hother "T" (by decide) (by decide), hwrite, hj⟩
  exact (hfull " " "\u2003" (by decide) (by decide)).trans hshort

end TopDown
