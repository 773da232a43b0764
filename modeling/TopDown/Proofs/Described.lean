-- What a document describes, told without the order in which it is read, and the checks that reading
-- makes. Loading gives what is described if all checks hold, and otherwise reports the first that does
-- not.
import Mathlib.Data.List.Basic
import TopDown.Proofs.Checks
import TopDown.Proofs.Legible

namespace TopDown

open Json (Value)
open Check (judge)

namespace Json.Value

/-- The items of an array, none for any other value. -/
def items (v : Value) : List Value := v.items?.getD []

/-- The members of an object, none for any other value. -/
def members (v : Value) : List (String × Value) := v.members?.getD []

/-- The text of a string, empty for any other value. -/
def text (v : Value) : String := v.string?.getD ""

/-- The texts of an array of strings. -/
def texts (v : Value) : List String := v.items.map text

end Json.Value

/-! ## What is described -/

/-- The first character of a spelling. -/
def Symbol.ofFirst (s : String) : Symbol := .terminal (s.toList.headD ' ')

/-- The symbol of a right-hand side that is spelled so, where these are the rule keys. -/
def Symbol.ofSpelling (names : List String) (s : String) : Symbol :=
  if s ∈ names then .nonTerminal (names.idxOf s)
  else if s = emptySpelling then .empty
  else .ofFirst s

/-- The lookahead that is spelled so. -/
def Symbol.ofLookahead (s : String) : Symbol := if s = endSpelling then .endMark else .ofFirst s

/-- The member of a FIRST or FOLLOW list that is spelled so. -/
def Symbol.ofMember (s : String) : Symbol := if s = emptySpelling then .empty else .ofLookahead s

namespace Document

/-- The names of the non-terminals are the rule keys. -/
def names (d : Document) : List String := Keyed.keys d.rules

/-- The alternatives under one rule key. -/
def alternativesOf (names : List String) (rule : String × Value) : List Production :=
  (rule.2.items.map Value.texts).map fun spellings =>
    ⟨names.idxOf rule.1,
      if spellings.isEmpty then [.empty] else spellings.map (Symbol.ofSpelling names)⟩

/-- Every rule key as a non-terminal, with the alternatives under it. -/
def grammar (d : Document) : Grammar where
  name := d.name
  start := d.names.idxOf d.start
  names := d.names
  rules := d.rules.map (alternativesOf d.names)

/-- The entry for one cell of the row of `name`. -/
def entryOf (g : Grammar) (name : String) (cell : String × Value) : Cell × Nat :=
  ((g.names.idxOf name, .ofLookahead cell.1),
    (g.alternativeOf? (g.names.idxOf name) cell.2.text).getD 0)

/-- The entries for one row of the table. -/
def entriesOf (g : Grammar) (row : String × Value) : List (Cell × Nat) :=
  row.2.members.map (entryOf g row.1)

/-- The members of the list under each of the names, in order of their numbers. -/
def listsOf (names : List String) (entries : List (String × Value)) : List (List Symbol) :=
  names.map fun name =>
    ((Keyed.get? name entries).map fun v => v.texts.map Symbol.ofMember).getD []

def described (d : Document) : Configuration where
  grammar := d.grammar
  table := ⟨Keyed.ofList (d.table.flatMap (entriesOf d.grammar))⟩
  sets := ⟨listsOf d.names d.first, listsOf d.names d.follow⟩
  closing := d.closing.map d.names.idxOf

/-! ## The checks -/

/-- The name is a rule key. -/
def nameCheck (names : List String) (name : String) : Check :=
  ⟨name ∈ names, .unknownNonTerminal name⟩

/-- The value can be read as this part of a document. -/
def shapeCheck {α : Type} (part : Misshape) (read : Value → Option α) (v : Value) : Check :=
  ⟨(read v).isSome, .malformed part⟩

/-- The value is an array of arrays of strings. -/
def alternativesChecks (v : Value) : List Check :=
  shapeCheck .alternatives Value.items? v ::
    v.items.flatMap fun production =>
      shapeCheck .production Value.items? production ::
        production.items.map (shapeCheck .symbol Value.string?)

/-- The text is a rule key, the empty marker or one character. -/
def symbolCheck (names : List String) (s : String) : Check :=
  ⟨s ∈ names || s = emptySpelling || s.length = 1, .invalidTerminal s⟩

/-- For one rule: the shapes of all of it, that it is not empty, and the symbols in order. -/
def ruleChecks (names : List String) (rule : String × Value) : List Check :=
  alternativesChecks rule.2 ++
    ⟨!rule.2.items.isEmpty, .emptyRule rule.1⟩ ::
    (rule.2.items.flatMap Value.texts).map (symbolCheck names)

/-- The text is one character. -/
def lookaheadCheck (s : String) : Check := ⟨s.length = 1, .invalidLookahead s⟩

/-- For one cell of the row of `name`: the lookahead, that the entry is a string, and that it writes
an alternative. -/
def cellChecks (g : Grammar) (name : String) (cell : String × Value) : List Check :=
  [lookaheadCheck cell.1,
    shapeCheck (.tableEntry name) Value.string? cell.2,
    ⟨(g.alternativeOf? (g.names.idxOf name) cell.2.text).isSome,
      .foreignProduction name cell.2.text⟩]

/-- For one row of the table: the name, that it is an object, and the cells in order. -/
def rowChecks (g : Grammar) (row : String × Value) : List Check :=
  nameCheck g.names row.1 ::
    shapeCheck (.tableRow row.1) Value.members? row.2 ::
    row.2.members.flatMap (cellChecks g row.1)

/-- For one FIRST or FOLLOW list: the name, that it is an array, and the members in order. -/
def listChecks (names : List String) (entry : String × Value) : List Check :=
  nameCheck names entry.1 ::
    shapeCheck .symbolSet Value.items? entry.2 ::
    entry.2.items.flatMap fun member =>
      [shapeCheck .symbol Value.string? member, lookaheadCheck member.text]

/-- All checks of a document in order. -/
def checks (d : Document) : List Check :=
  ⟨d.start ∈ d.names, .unknownStart d.start⟩ ::
    d.rules.flatMap (ruleChecks d.names) ++
    d.closing.toList.map (nameCheck d.names) ++
    d.table.flatMap (rowChecks d.grammar) ++
    d.first.flatMap (listChecks d.names) ++
    d.follow.flatMap (listChecks d.names)

end Document

/-! ## Spelled symbols -/

theorem length_eq_one_iff {s : String} : s.length = 1 ↔ ∃ c, s.toList = [c] := by
  rw [← String.length_toList, List.length_eq_one_iff]

theorem singleChar?_eq (s : String) :
    singleChar? s = if s.length = 1 then some (s.toList.headD ' ') else none := by
  unfold singleChar?
  split
  · next c hc => rw [if_pos (length_eq_one_iff.mpr ⟨c, hc⟩), hc, List.headD_cons]
  · next hmany =>
    rw [if_neg]
    rintro hlen
    obtain ⟨c, hc⟩ := length_eq_one_iff.mp hlen
    exact hmany c hc

namespace Grammar

variable {g : Grammar} {names : List String}

theorem idOf?_eq (g : Grammar) (name : String) :
    g.idOf? name = if name ∈ g.names then some (g.names.idxOf name) else none := by
  split
  · next hmem =>
    rw [idOf?, List.findIdx?_eq_some_iff_findIdx_eq]
    exact ⟨List.idxOf_lt_length_iff.mpr hmem, rfl⟩
  · next hnot => exact idOf?_eq_none_iff.mpr hnot

theorem requireId_eq_judge (g : Grammar) (name : String) :
    g.requireId name = judge [Document.nameCheck g.names name] (g.names.idxOf name) := by
  unfold requireId
  rw [idOf?_eq]
  by_cases h : name ∈ g.names
  · rw [if_pos h, Check.judge_of_all (by simp [Document.nameCheck, h])]
  · rw [if_neg h, Check.judge_cons_of_fails (by simpa [Document.nameCheck] using h)]
    rfl

theorem readSymbol_eq_judge (g : Grammar) (s : String) :
    g.readSymbol s = judge [Document.symbolCheck g.names s] (.ofSpelling g.names s) := by
  unfold readSymbol Symbol.ofSpelling
  rw [idOf?_eq]
  by_cases hmem : s ∈ g.names
  · rw [if_pos hmem, if_pos hmem, Check.judge_of_all (by simp [Document.symbolCheck, hmem])]
  rw [if_neg hmem, if_neg hmem]
  by_cases hempty : s = emptySpelling
  · simp only [if_pos hempty]
    rw [Check.judge_of_all (by simp [Document.symbolCheck, hempty])]
  simp only [if_neg hempty, singleChar?_eq]
  by_cases hlen : s.length = 1
  · simp only [if_pos hlen]
    rw [Check.judge_of_all (by simp [Document.symbolCheck, hlen])]
    rfl
  · simp only [if_neg hlen]
    rw [Check.judge_cons_of_fails (by simp [Document.symbolCheck, hmem, hempty, hlen])]
    rfl

end Grammar

theorem readLookahead_eq_judge (s : String) :
    readLookahead s = judge [Document.lookaheadCheck s] (.ofLookahead s) := by
  unfold readLookahead Symbol.ofLookahead
  by_cases hend : s = endSpelling
  · subst hend
    rfl
  simp only [if_neg hend, singleChar?_eq]
  by_cases hlen : s.length = 1
  · simp only [if_pos hlen]
    rw [Check.judge_of_all (by simp [Document.lookaheadCheck, hlen])]
    rfl
  · simp only [if_neg hlen]
    rw [Check.judge_cons_of_fails (by simp [Document.lookaheadCheck, hlen])]
    rfl

theorem readMember_eq_judge (s : String) :
    readMember s = judge [Document.lookaheadCheck s] (.ofMember s) := by
  unfold readMember Symbol.ofMember
  by_cases hempty : s = emptySpelling
  · subst hempty
    rfl
  · rw [if_neg hempty, if_neg hempty, readLookahead_eq_judge]

/-! ## Shapes -/

namespace Document

theorem require_eq_judge {α : Type} (part : Misshape) (read : Value → Option α) (v : Value)
    (a : α) : require part read v = judge [shapeCheck part read v] ((read v).getD a) := by
  unfold require
  cases h : read v with
  | none =>
    rw [Check.judge_cons_of_fails (by simp [shapeCheck, h])]
    rfl
  | some x =>
    rw [Check.judge_of_all (by simp [shapeCheck, h])]
    rfl

theorem readProduction_eq_judge (v : Value) :
    readProduction v =
      judge (shapeCheck .production Value.items? v ::
        v.items.map (shapeCheck .symbol Value.string?)) v.texts := by
  unfold readProduction
  rw [require_eq_judge .production Value.items? v []]
  apply Check.judge_bind
  intro _
  rw [List.map_eq_flatMap]
  exact Check.mapM_eq_judge fun item _ => require_eq_judge .symbol Value.string? item ""

theorem readAlternatives_eq_judge (v : Value) :
    readAlternatives v = judge (alternativesChecks v) (v.items.map Value.texts) := by
  unfold readAlternatives
  rw [require_eq_judge .alternatives Value.items? v []]
  apply Check.judge_bind
  intro _
  exact Check.mapM_eq_judge fun item _ => readProduction_eq_judge item

theorem readSet_eq_judge (v : Value) :
    readSet v =
      judge (shapeCheck .symbolSet Value.items? v ::
        v.items.flatMap fun member =>
          [shapeCheck .symbol Value.string? member, lookaheadCheck member.text])
        (v.texts.map Symbol.ofMember) := by
  unfold readSet
  rw [require_eq_judge .symbolSet Value.items? v []]
  apply Check.judge_bind
  intro _
  unfold Value.texts
  rw [List.map_map]
  refine Check.mapM_eq_judge fun member _ => ?_
  rw [require_eq_judge .symbol Value.string? member ""]
  exact Check.judge_bind fun _ => readMember_eq_judge member.text

/-! ## Rules -/

/-- Append alternatives of `lhs` in order. -/
def addAll (lhs : Nat) (g : Grammar) (alternatives : List (List Symbol)) : Grammar :=
  alternatives.foldl (fun g rhs => (g.addProduction lhs rhs).2) g

theorem adds_addAll (lhs : Nat) (g : Grammar) (alternatives : List (List Symbol)) :
    g.Adds lhs (alternatives.map fun rhs => ⟨lhs, if rhs.isEmpty then [.empty] else rhs⟩)
      (addAll lhs g alternatives) := by
  induction alternatives generalizing g with
  | nil => exact .refl g lhs
  | cons rhs alternatives ih => exact (Grammar.Adds.addProduction g lhs rhs).trans (ih _)

/-- The right-hand sides under one rule key. -/
def sidesOf (names : List String) (v : Value) : List (List Symbol) :=
  (v.items.map Value.texts).map fun spellings => spellings.map (Symbol.ofSpelling names)

theorem alternativesOf_eq (names : List String) (rule : String × Value) :
    alternativesOf names rule =
      (sidesOf names rule.2).map fun rhs =>
        ⟨names.idxOf rule.1, if rhs.isEmpty then [.empty] else rhs⟩ := by
  simp [alternativesOf, sidesOf]

/-- The alternatives of one rule, each of which is read with the names that there are. -/
theorem addAlternatives_eq_judge {g : Grammar} {names : List String} (hg : g.names = names)
    (lhs : Nat) (alternatives : List (List String)) :
    alternatives.foldlM (fun g spellings => do
        return (g.addProduction lhs (← spellings.mapM g.readSymbol)).2) g =
      judge (alternatives.flatten.map (symbolCheck names))
        (addAll lhs g (alternatives.map fun spellings =>
          spellings.map (Symbol.ofSpelling names))) := by
  have hturn : ∀ (spellings : List String) (h : Grammar), h.names = names →
      (do return (h.addProduction lhs (← spellings.mapM h.readSymbol)).2) =
        judge (spellings.map (symbolCheck names))
          (h.addProduction lhs (spellings.map (Symbol.ofSpelling names))).2 := by
    intro spellings h hnames
    rw [List.map_eq_flatMap, Check.mapM_eq_judge fun s _ => hnames ▸ h.readSymbol_eq_judge s]
    exact Check.judge_bind_ok fun _ => rfl
  refine (Check.foldlM_eq_judge (P := fun h => h.names = names)
    (k := fun h spellings => (h.addProduction lhs (spellings.map (Symbol.ofSpelling names))).2)
    (fun spellings _ h hnames => ⟨hturn spellings h hnames, fun _ => hnames⟩) hg).trans ?_
  rw [addAll, List.foldl_map, List.map_flatten, List.flatMap_def]

theorem addRule_eq_judge {g : Grammar} {names : List String} {rule : String × Value}
    (hg : g.names = names) (hrule : rule.1 ∈ names) :
    addRule g rule =
      judge (ruleChecks names rule) (addAll (names.idxOf rule.1) g (sidesOf names rule.2)) := by
  have hid : g.requireId rule.1 = .ok (names.idxOf rule.1) := by
    rw [Grammar.requireId_eq_judge, hg, Check.judge_of_all (by simpa [nameCheck] using hrule)]
  unfold addRule ruleChecks
  rw [hid, readAlternatives_eq_judge]
  refine Check.judge_bind fun _ => ?_
  simp only [List.isEmpty_map]
  cases hempty : rule.2.items.isEmpty with
  | true =>
    rw [Check.judge_cons_of_fails rfl]
    rfl
  | false =>
    rw [Check.judge_cons_of_holds rfl, List.flatMap_def]
    exact addAlternatives_eq_judge hg _ _

theorem addRules_eq_judge {g : Grammar} {names : List String} (hg : g.names = names)
    {rules : List (String × Value)} (hrules : ∀ rule ∈ rules, rule.1 ∈ names) :
    rules.foldlM addRule g =
      judge (rules.flatMap (ruleChecks names))
        (rules.foldl (fun h rule => addAll (names.idxOf rule.1) h (sidesOf names rule.2)) g) :=
  Check.foldlM_eq_judge (P := fun h => h.names = names) (f := addRule)
    (k := fun h rule => addAll (names.idxOf rule.1) h (sidesOf names rule.2))
    (fun rule hrule _ hnames => ⟨addRule_eq_judge hnames (hrules rule hrule),
      fun _ => (adds_addAll _ _ _).names_eq.trans hnames⟩) hg

/-- The rules in order fill one row after another. The induction is on the rules ahead. -/
theorem productions_addRules {done ahead : List (String × Value)} {names : List String}
    (hnames : names = Keyed.keys (done ++ ahead)) (hnodup : names.Nodup) {g : Grammar}
    (hg : ∀ nt, g.productions nt = Rows.row (done.map (alternativesOf names)) nt) (nt : Nat) :
    (ahead.foldl (fun h rule => addAll (names.idxOf rule.1) h (sidesOf names rule.2)) g).productions
        nt = Rows.row ((done ++ ahead).map (alternativesOf names)) nt := by
  induction ahead generalizing done g with
  | nil => rw [List.append_nil, List.foldl_nil, hg]
  | cons rule ahead ih =>
    have hplace : names.idxOf rule.1 = done.length := by
      have hnew := Keyed.not_mem_keys_of_nodup (hnames ▸ hnodup)
      have hkeys : Keyed.keys (done ++ rule :: ahead) =
          Keyed.keys done ++ rule.1 :: Keyed.keys ahead := List.map_append
      rw [hnames, hkeys, List.idxOf_append_of_notMem hnew, List.idxOf_cons_self, Keyed.keys,
        List.length_map, Nat.add_zero]
    have hcons : done ++ rule :: ahead = (done ++ [rule]) ++ ahead := by simp
    rw [List.foldl_cons, hcons]
    refine ih (hcons ▸ hnames) fun nt => ?_
    have hadds := adds_addAll (names.idxOf rule.1) g (sidesOf names rule.2)
    rw [hadds.productions_eq, ← alternativesOf_eq, hg, List.map_append, List.map_singleton,
      Rows.row_append_singleton, hplace, List.length_map]
    by_cases heq : done.length = nt
    · rw [if_pos heq, if_pos heq, Rows.row_of_length_le (by simp [heq]), List.nil_append]
    · rw [if_neg heq, if_neg heq]

theorem readGrammar_eq_judge {d : Document} (hd : (Keyed.keys d.rules).Nodup) :
    d.readGrammar =
      judge (⟨d.start ∈ d.names, .unknownStart d.start⟩ ::
        d.rules.flatMap (ruleChecks d.names)) d.grammar := by
  have hdeclared : d.declared.names = d.names := names_declared hd
  by_cases hstart : d.start ∈ d.names
  · have hid : d.declared.idOf? d.start = some (d.names.idxOf d.start) := by
      rw [Grammar.idOf?_eq, hdeclared, if_pos hstart]
    have hread : d.readGrammar =
        d.rules.foldlM addRule { d.declared with start := d.names.idxOf d.start } := by
      unfold readGrammar
      simp only [hid]
    have hrules : d.rules.foldlM addRule { d.declared with start := d.names.idxOf d.start } = _ :=
      addRules_eq_judge (g := { d.declared with start := d.names.idxOf d.start }) hdeclared
        fun rule hrule => List.mem_map_of_mem hrule
    rw [Check.judge_cons_of_holds (by simpa using hstart), hread, hrules]
    refine Check.judge_congr fun hall => ?_
    rw [Check.judge_of_all hall] at hrules
    have houtline := outlines_of_readGrammar (hread.trans hrules)
    have hnil : ∀ nt, ({ d.declared with start := d.names.idxOf d.start } : Grammar).productions nt =
        [] := productions_declared d
    obtain ⟨hnames, hstart', _⟩ := fits_of_addRules (fun nt p hp => by
      rw [hnil] at hp
      cases hp) hrules
    refine Grammar.eq_of_productions houtline.name_eq hstart' (hnames.trans hdeclared) ?_ fun nt => ?_
    · rw [houtline.length_rules, hnames, hdeclared]
      simp [grammar, names, Keyed.keys]
    · exact @productions_addRules [] d.rules d.names rfl hd _ hnil nt
  · have hid : d.declared.idOf? d.start = none := by
      rw [Grammar.idOf?_eq, hdeclared, if_neg hstart]
    rw [Check.judge_cons_of_fails (by simpa using hstart)]
    unfold readGrammar
    simp only [hid]
    rfl

/-! ## The table -/

/-- What a text is found to write is there, so it can be entered. -/
theorem isSome_production?_of_alternativeOf? {g : Grammar} {nt k : Nat} {text : String}
    (h : g.alternativeOf? nt text = some k) : (g.production? nt k).isSome = true := by
  have hspelled : ∀ words, g.spelledBy? nt words = some k → (g.production? nt k).isSome = true := by
    intro words hwords
    obtain ⟨hlt, _⟩ := List.findIdx?_eq_some_iff_getElem.mp hwords
    simp [Grammar.production?, List.getElem?_eq_getElem hlt]
  unfold Grammar.alternativeOf? at h
  split at h
  · exact hspelled _ h
  · split at h
    · exact hspelled _ h
    · cases h

/-- The table with one more entry. -/
def enter (t : ParsingTable) (e : Cell × Nat) : ParsingTable := ⟨Keyed.put e.1 e.2 t.entries⟩

theorem foldl_enter (t : ParsingTable) (es : List (Cell × Nat)) :
    es.foldl enter t = ⟨es.foldl (fun entries e => Keyed.put e.1 e.2 entries) t.entries⟩ := by
  induction es generalizing t with
  | nil => rfl
  | cons e es ih => exact ih (enter t e)

theorem addCell_eq_judge (g : Grammar) (name : String) (t : ParsingTable) (cell : String × Value) :
    addCell g name (g.names.idxOf name) t cell =
      judge (cellChecks g name cell) (enter t (entryOf g name cell)) := by
  have htext : (Value.string? cell.2).getD "" = cell.2.text := rfl
  unfold addCell
  rw [readLookahead_eq_judge]
  refine Check.judge_bind fun _ => ?_
  rw [require_eq_judge (.tableEntry name) Value.string? cell.2 "", htext]
  refine Check.judge_bind fun _ => ?_
  unfold entryOf
  cases h : g.alternativeOf? (g.names.idxOf name) cell.2.text with
  | none =>
    rw [Check.judge_cons_of_fails rfl]
    rfl
  | some k =>
    rw [Check.judge_of_all (by simp)]
    exact (ParsingTable.insert_eq_ok_iff _ _ _ _ _ _).mpr
      ⟨isSome_production?_of_alternativeOf? h, rfl⟩

theorem addRow_eq_judge (g : Grammar) (t : ParsingTable) (row : String × Value) :
    addRow g t row = judge (rowChecks g row) ((entriesOf g row).foldl enter t) := by
  unfold addRow rowChecks
  rw [Grammar.requireId_eq_judge]
  refine Check.judge_bind fun _ => ?_
  rw [require_eq_judge (.tableRow row.1) Value.members? row.2 []]
  refine Check.judge_bind fun _ => ?_
  rw [entriesOf, List.foldl_map]
  exact Check.foldlM_eq_judge (P := fun _ => True)
    (fun cell _ t _ => ⟨addCell_eq_judge g row.1 t cell, fun _ => trivial⟩) trivial

theorem readTable_eq_judge (d : Document) (g : Grammar) :
    d.readTable g =
      judge (d.table.flatMap (rowChecks g)) ⟨Keyed.ofList (d.table.flatMap (entriesOf g))⟩ := by
  have hentries : d.table.foldl (fun t row => (entriesOf g row).foldl enter t) .empty =
      ⟨Keyed.ofList (d.table.flatMap (entriesOf g))⟩ := by
    rw [← List.foldl_flatMap, foldl_enter]
    rfl
  rw [← hentries]
  exact Check.foldlM_eq_judge (P := fun _ => True)
    (fun row _ t _ => ⟨addRow_eq_judge g t row, fun _ => trivial⟩) trivial

/-! ## Lists -/

/-- Write the list of an entry into the row of its name. -/
def writeList (names : List String) (rows : List (List Symbol)) (entry : String × Value) :
    List (List Symbol) :=
  Rows.put (names.idxOf entry.1) (entry.2.texts.map Symbol.ofMember) rows

theorem length_foldl_writeList {names : List String} {entries : List (String × Value)}
    (hmem : ∀ e ∈ entries, e.1 ∈ names) {rows : List (List Symbol)}
    (hrows : rows.length = names.length) :
    (entries.foldl (writeList names) rows).length = names.length := by
  induction entries generalizing rows with
  | nil => exact hrows
  | cons e entries ih =>
    apply ih fun f hf => hmem f (List.mem_cons_of_mem e hf)
    have hlt := List.idxOf_lt_length_iff.mpr (hmem e List.mem_cons_self)
    rw [writeList, Rows.length_put]
    omega

/-- Where no two entries have one name, the one with the name of a row fills it. -/
theorem row_foldl_writeList {names : List String} {entries : List (String × Value)}
    (hnames : names.Nodup) (hnodup : (Keyed.keys entries).Nodup)
    (hmem : ∀ e ∈ entries, e.1 ∈ names) {nt : Nat} (hnt : nt < names.length)
    (rows : List (List Symbol)) :
    Rows.row (entries.foldl (writeList names) rows) nt =
      ((Keyed.get? names[nt] entries).map fun v => v.texts.map Symbol.ofMember).getD
        (Rows.row rows nt) := by
  induction entries generalizing rows with
  | nil => rfl
  | cons e entries ih =>
    obtain ⟨hnew, hrest⟩ := List.nodup_cons.mp hnodup
    rw [List.foldl_cons, ih hrest fun f hf => hmem f (List.mem_cons_of_mem e hf), Keyed.get?,
      writeList, Rows.row_put]
    by_cases he : e.1 = names[nt]
    · rw [he, List.Nodup.idxOf_getElem hnames, if_pos rfl, if_pos rfl,
        Keyed.get?_of_not_mem_keys (he ▸ hnew)]
      rfl
    · have hidx : names.idxOf e.1 ≠ nt := by
        rintro rfl
        exact he (List.getElem_idxOf hnt).symm
      rw [if_neg he, if_neg hidx]

theorem foldl_writeList {names : List String} {entries : List (String × Value)}
    (hnames : names.Nodup) (hnodup : (Keyed.keys entries).Nodup)
    (hmem : ∀ e ∈ entries, e.1 ∈ names) :
    entries.foldl (writeList names) (Rows.grow names.length []) = listsOf names entries := by
  have hlen : (entries.foldl (writeList names) (Rows.grow names.length [])).length =
      names.length := by
    apply length_foldl_writeList hmem
    simp [Rows.length_grow]
  have hlists : (listsOf names entries).length = names.length := List.length_map _
  apply Rows.ext (hlen.trans hlists.symm)
  intro nt
  by_cases hnt : nt < names.length
  · rw [row_foldl_writeList hnames hnodup hmem hnt, Rows.row_grow]
    simp [listsOf, Rows.row, List.getElem?_map, List.getElem?_eq_getElem hnt]
  · rw [Rows.row_of_length_le (by omega), Rows.row_of_length_le (by omega)]

theorem readList_eq_judge (g : Grammar) (set : SymbolSets → Nat → List Symbol → SymbolSets)
    (s : SymbolSets) (entry : String × Value) :
    (do
      let nt ← g.requireId entry.1
      return set s nt (← readSet entry.2)) =
      judge (listChecks g.names entry)
        (set s (g.names.idxOf entry.1) (entry.2.texts.map Symbol.ofMember)) := by
  rw [Grammar.requireId_eq_judge]
  refine Check.judge_bind fun _ => ?_
  rw [readSet_eq_judge]
  exact Check.judge_bind_ok fun _ => rfl

theorem foldl_setFirst (names : List String) (entries : List (String × Value)) (s : SymbolSets) :
    entries.foldl (fun s entry =>
      s.setFirst (names.idxOf entry.1) (entry.2.texts.map Symbol.ofMember)) s =
      { s with firstRows := entries.foldl (writeList names) s.firstRows } := by
  induction entries generalizing s with
  | nil => rfl
  | cons entry entries ih => exact ih _

theorem foldl_setFollow (names : List String) (entries : List (String × Value)) (s : SymbolSets) :
    entries.foldl (fun s entry =>
      s.setFollow (names.idxOf entry.1) (entry.2.texts.map Symbol.ofMember)) s =
      { s with followRows := entries.foldl (writeList names) s.followRows } := by
  induction entries generalizing s with
  | nil => rfl
  | cons entry entries ih => exact ih _

/-- The names of lists that pass their checks are rule keys. -/
theorem mem_names_of_listChecks {names : List String} {entries : List (String × Value)}
    (h : Check.All (entries.flatMap (listChecks names))) : ∀ e ∈ entries, e.1 ∈ names := by
  intro e he
  have hname := (Check.all_cons.mp (Check.all_flatMap.mp h e he)).1
  simpa [nameCheck] using hname

theorem readSets_eq_judge {d : Document} {g : Grammar} (hg : g.names.Nodup)
    (hfirst : (Keyed.keys d.first).Nodup) (hfollow : (Keyed.keys d.follow).Nodup) :
    d.readSets g =
      judge (d.first.flatMap (listChecks g.names) ++ d.follow.flatMap (listChecks g.names))
        ⟨listsOf g.names d.first, listsOf g.names d.follow⟩ := by
  have hturns : ∀ (set : SymbolSets → Nat → List Symbol → SymbolSets)
      (entries : List (String × Value)) (s : SymbolSets),
      entries.foldlM (fun s entry => do
        let nt ← g.requireId entry.1
        return set s nt (← readSet entry.2)) s =
        judge (entries.flatMap (listChecks g.names)) (entries.foldl (fun s entry =>
          set s (g.names.idxOf entry.1) (entry.2.texts.map Symbol.ofMember)) s) := by
    intro set entries s
    exact Check.foldlM_eq_judge (P := fun _ => True)
      (fun entry _ s _ => ⟨readList_eq_judge g set s entry, fun _ => trivial⟩) trivial
  unfold readSets
  rw [hturns SymbolSets.setFirst, foldl_setFirst]
  refine Check.judge_bind fun hall => ?_
  rw [hturns SymbolSets.setFollow, foldl_setFollow]
  refine Check.judge_congr fun hall' => ?_
  simp only [SymbolSets.new, foldl_writeList hg hfirst (mem_names_of_listChecks hall),
    foldl_writeList hg hfollow (mem_names_of_listChecks hall')]

/-! ## Configurations -/

/-- Loading runs through the checks of the document, and gives what it describes. -/
theorem configuration_eq_judge {d : Document} (hd : d.Distinct) :
    d.configuration = judge d.checks d.described := by
  unfold configuration checks
  simp only [List.append_assoc]
  rw [readGrammar_eq_judge hd.rules]
  refine Check.judge_bind fun _ => ?_
  rw [Check.optionMapM_eq_judge (d.grammar.requireId_eq_judge), ← List.map_eq_flatMap]
  refine Check.judge_bind fun _ => ?_
  rw [readTable_eq_judge]
  refine Check.judge_bind fun _ => ?_
  rw [readSets_eq_judge hd.rules hd.first hd.follow]
  exact Check.judge_bind_ok fun _ => rfl

end Document

end TopDown
