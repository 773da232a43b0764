-- Which documents load, and what is reported of the others. The checks of a document all hold exactly
-- if its parts have the shapes that are asked for and every name and text means something; otherwise
-- the first one that does not hold is reported, whatever else is wrong.
import Mathlib
import TopDown.Proofs.Described

namespace TopDown

open Json (Value)
open Check (judge)

namespace Document

/-- A rule: alternatives, at least one, of rule keys, empty markers and single characters. -/
def IsRule (names : List String) (v : Value) : Prop :=
  ∃ alternatives : List (List String),
    v = .array (alternatives.map fun spellings => .array (spellings.map .string)) ∧
    alternatives ≠ [] ∧
    ∀ spellings ∈ alternatives, ∀ s ∈ spellings, s ∈ names ∨ s = emptySpelling ∨ s.length = 1

/-- A row of the table for a non-terminal: under single characters texts that write alternatives
of it. -/
def IsRow (g : Grammar) (nt : Nat) (v : Value) : Prop :=
  ∃ cells : List (String × String),
    v = .object (cells.map fun cell => (cell.1, .string cell.2)) ∧
    ∀ cell ∈ cells, cell.1.length = 1 ∧ (g.alternativeOf? nt cell.2).isSome

/-- A FIRST or FOLLOW list: single characters. -/
def IsList (v : Value) : Prop :=
  ∃ members : List String, v = .array (members.map .string) ∧ ∀ s ∈ members, s.length = 1

/-- Every name is a rule key and every part of the document is what it should be. -/
structure Loadable (d : Document) : Prop where
  start : d.start ∈ d.names
  rules : ∀ rule ∈ d.rules, IsRule d.names rule.2
  closing : ∀ name ∈ d.closing, name ∈ d.names
  table : ∀ row ∈ d.table, row.1 ∈ d.names ∧ IsRow d.grammar (d.names.idxOf row.1) row.2
  first : ∀ entry ∈ d.first, entry.1 ∈ d.names ∧ IsList entry.2
  follow : ∀ entry ∈ d.follow, entry.1 ∈ d.names ∧ IsList entry.2

/-! ## Shapes -/

/-- Where each item is the image of something, the list is the image of a list. -/
theorem forall_exists_iff {α β : Type} {f : α → β} {Q : α → Prop} {ys : List β} :
    (∀ y ∈ ys, ∃ x, y = f x ∧ Q x) ↔ ∃ xs : List α, ys = xs.map f ∧ ∀ x ∈ xs, Q x := by
  constructor
  · intro h
    induction ys with
    | nil => exact ⟨[], rfl, by simp⟩
    | cons y ys ih =>
      obtain ⟨x, rfl, hx⟩ := h y List.mem_cons_self
      obtain ⟨xs, rfl, hxs⟩ := ih fun z hz => h z (List.mem_cons_of_mem _ hz)
      exact ⟨x :: xs, rfl, by simpa using ⟨hx, hxs⟩⟩
  · rintro ⟨xs, rfl, hxs⟩ y hy
    obtain ⟨x, hx, rfl⟩ := List.mem_map.mp hy
    exact ⟨x, rfl, hxs x hx⟩

@[simp] theorem items_array (vs : List Value) : (Value.array vs).items = vs := rfl

@[simp] theorem members_object (ms : List (String × Value)) : (Value.object ms).members = ms := rfl

@[simp] theorem text_string (s : String) : (Value.string s).text = s := rfl

theorem texts_strings (ss : List String) : (Value.array (ss.map .string)).texts = ss := by
  simp [Value.texts, Function.comp_def]

theorem holds_string {part : Misshape} {v : Value} :
    (shapeCheck part Value.string? v).holds = true ↔ ∃ s, v = .string s := by
  cases v <;> simp [shapeCheck, Value.string?]

section

variable {α β : Type} {part : Misshape} {Q : α → Prop}

theorem all_flatMap_iff {cs : β → List Check} {f : α → β}
    (h : ∀ y, Check.All (cs y) ↔ ∃ x, y = f x ∧ Q x) (ys : List β) :
    Check.All (ys.flatMap cs) ↔ ∃ xs : List α, ys = xs.map f ∧ ∀ x ∈ xs, Q x := by
  rw [Check.all_flatMap, ← forall_exists_iff]
  exact forall₂_congr fun y _ => h y

/-- An array whose items all pass their checks. -/
theorem all_array {cs : Value → List Check} {f : α → Value}
    (h : ∀ w, Check.All (cs w) ↔ ∃ x, w = f x ∧ Q x) (v : Value) :
    Check.All (shapeCheck part Value.items? v :: v.items.flatMap cs) ↔
      ∃ xs : List α, v = .array (xs.map f) ∧ ∀ x ∈ xs, Q x := by
  have hshape : (shapeCheck part Value.items? v).holds = true ↔ ∃ vs, v = .array vs := by
    cases v <;> simp [shapeCheck, Value.items?]
  rw [Check.all_cons, hshape, all_flatMap_iff h]
  constructor
  · rintro ⟨⟨vs, rfl⟩, xs, hxs, hQ⟩
    exact ⟨xs, congrArg Value.array hxs, hQ⟩
  · rintro ⟨xs, rfl, hQ⟩
    exact ⟨⟨_, rfl⟩, xs, rfl, hQ⟩

/-- An object whose members all pass their checks. -/
theorem all_object {cs : String × Value → List Check} {f : α → String × Value}
    (h : ∀ m, Check.All (cs m) ↔ ∃ x, m = f x ∧ Q x) (v : Value) :
    Check.All (shapeCheck part Value.members? v :: v.members.flatMap cs) ↔
      ∃ xs : List α, v = .object (xs.map f) ∧ ∀ x ∈ xs, Q x := by
  have hshape : (shapeCheck part Value.members? v).holds = true ↔ ∃ ms, v = .object ms := by
    cases v <;> simp [shapeCheck, Value.members?]
  rw [Check.all_cons, hshape, all_flatMap_iff h]
  constructor
  · rintro ⟨⟨ms, rfl⟩, xs, hxs, hQ⟩
    exact ⟨xs, congrArg Value.object hxs, hQ⟩
  · rintro ⟨xs, rfl, hQ⟩
    exact ⟨⟨_, rfl⟩, xs, rfl, hQ⟩

end

/-! ## Checks that hold -/

theorem all_production (v : Value) :
    Check.All (shapeCheck .production Value.items? v ::
      v.items.map (shapeCheck .symbol Value.string?)) ↔
      ∃ spellings : List String, v = .array (spellings.map .string) := by
  have hsymbol : ∀ w, Check.All [shapeCheck .symbol Value.string? w] ↔
      ∃ s, w = Value.string s ∧ True := by
    intro w
    simp [holds_string]
  rw [List.map_eq_flatMap, all_array hsymbol]
  simp

theorem all_alternativesChecks (v : Value) :
    Check.All (alternativesChecks v) ↔ ∃ alternatives : List (List String),
      v = .array (alternatives.map fun spellings => .array (spellings.map .string)) := by
  have hproduction : ∀ w, Check.All (shapeCheck .production Value.items? w ::
      w.items.map (shapeCheck .symbol Value.string?)) ↔
      ∃ spellings : List String, w = .array (spellings.map .string) ∧ True := by
    intro w
    rw [all_production]
    simp
  rw [alternativesChecks, all_array hproduction]
  simp

theorem all_ruleChecks {names : List String} {rule : String × Value} :
    Check.All (ruleChecks names rule) ↔ IsRule names rule.2 := by
  unfold ruleChecks IsRule
  rw [Check.all_append, all_alternativesChecks, Check.all_cons, Check.all_map]
  have hsymbols : ∀ alternatives : List (List String),
      (Value.array (alternatives.map fun spellings => .array (spellings.map .string))).items.flatMap
        Value.texts = alternatives.flatten := by
    intro alternatives
    rw [items_array, List.flatMap_map]
    simp [texts_strings, List.flatMap_def]
  constructor
  · rintro ⟨⟨alternatives, hv⟩, hne, hall⟩
    rw [hv, hsymbols] at hall
    rw [hv] at hne
    refine ⟨alternatives, hv, by simpa using hne, fun spellings hspellings s hs => ?_⟩
    have hcheck := hall s (List.mem_flatten.mpr ⟨spellings, hspellings, hs⟩)
    simpa [symbolCheck, or_assoc] using hcheck
  · rintro ⟨alternatives, hv, hne, hall⟩
    rw [hv, hsymbols]
    refine ⟨⟨alternatives, rfl⟩, by simpa using hne, fun s hs => ?_⟩
    obtain ⟨spellings, hspellings, hs⟩ := List.mem_flatten.mp hs
    simpa [symbolCheck, or_assoc] using hall spellings hspellings s hs

theorem holds_nameCheck {names : List String} {name : String} :
    (nameCheck names name).holds = true ↔ name ∈ names := by simp [nameCheck]

theorem all_rowChecks {g : Grammar} {row : String × Value} :
    Check.All (rowChecks g row) ↔ row.1 ∈ g.names ∧ IsRow g (g.names.idxOf row.1) row.2 := by
  have hcell : ∀ cell, Check.All (cellChecks g row.1 cell) ↔
      ∃ x : String × String, cell = (x.1, Value.string x.2) ∧
        (x.1.length = 1 ∧ (g.alternativeOf? (g.names.idxOf row.1) x.2).isSome = true) := by
    rintro ⟨key, v⟩
    simp only [cellChecks, Check.all_cons, holds_string, lookaheadCheck, decide_eq_true_eq]
    constructor
    · rintro ⟨hkey, ⟨s, rfl⟩, hfound, _⟩
      exact ⟨(key, s), rfl, hkey, hfound⟩
    · rintro ⟨⟨key', s⟩, heq, hkey, hfound⟩
      cases heq
      exact ⟨hkey, ⟨s, rfl⟩, hfound, Check.all_nil⟩
  rw [rowChecks, Check.all_cons, holds_nameCheck, all_object hcell]
  rfl

theorem all_listChecks {names : List String} {entry : String × Value} :
    Check.All (listChecks names entry) ↔ entry.1 ∈ names ∧ IsList entry.2 := by
  have hmember : ∀ member, Check.All [shapeCheck .symbol Value.string? member,
      lookaheadCheck member.text] ↔ ∃ s, member = Value.string s ∧ s.length = 1 := by
    intro member
    simp only [Check.all_cons, holds_string, lookaheadCheck, decide_eq_true_eq]
    constructor
    · rintro ⟨⟨s, rfl⟩, hlen, _⟩
      exact ⟨s, rfl, hlen⟩
    · rintro ⟨s, rfl, hlen⟩
      exact ⟨⟨s, rfl⟩, hlen, Check.all_nil⟩
  rw [listChecks, Check.all_cons, holds_nameCheck, all_array hmember]
  rfl

theorem all_checks {d : Document} : Check.All d.checks ↔ d.Loadable := by
  simp only [checks, Check.all_append, Check.all_cons, Check.all_flatMap, Check.all_map,
    all_ruleChecks, all_rowChecks, all_listChecks, holds_nameCheck, decide_eq_true_eq,
    Option.mem_toList]
  constructor
  · rintro ⟨⟨⟨⟨⟨hstart, hrules⟩, hclosing⟩, htable⟩, hfirst⟩, hfollow⟩
    exact ⟨hstart, hrules, hclosing, htable, hfirst, hfollow⟩
  · rintro ⟨hstart, hrules, hclosing, htable, hfirst, hfollow⟩
    exact ⟨⟨⟨⟨⟨hstart, hrules⟩, hclosing⟩, htable⟩, hfirst⟩, hfollow⟩

end Document

namespace Configuration

theorem ofText_eq_judge {text : String} {d : Document} (h : Document.ofText text = .ok d) :
    ofText text = judge d.checks d.described := by
  unfold ofText
  rw [h]
  exact Document.configuration_eq_judge (Document.distinct_of_ofText h)

/-- What is loaded is what the document describes. -/
theorem ofText_eq_ok_iff {text : String} {d : Document} {c : Configuration}
    (h : Document.ofText text = .ok d) :
    ofText text = .ok c ↔ d.Loadable ∧ c = d.described := by
  rw [ofText_eq_judge h, Check.judge_eq_ok_iff, Document.all_checks, eq_comm (a := c)]

/-- A document that is read loads exactly if each of its names is a rule key, each of its parts has
its shape and each of its texts means something, and then gives what it describes. Otherwise the
error is that of the first check that fails, in the order of the checks. To enter what a text was
found to write into the table never fails. -/
theorem loading_decides_and_reports_the_first_failure {text : String} {d : Document}
    (h : Document.ofText text = .ok d) :
    ((∃ c, ofText text = .ok c) ↔ d.Loadable) ∧
    (∀ c, ofText text = .ok c → c = d.described) ∧
    (∀ e, ofText text = .error e ↔ Check.firstError? d.checks = some e) ∧
    ∀ (g : Grammar) (t : ParsingTable) (nt alternative : Nat) (lookahead : Symbol) (s : String),
      g.alternativeOf? nt s = some alternative →
      ∃ u, t.insert g nt lookahead alternative = .ok u := by
  rw [ofText_eq_judge h]
  refine ⟨?_, fun c hc => (Check.judge_eq_ok_iff.mp hc).2.symm, fun e => Check.judge_eq_error_iff,
    fun g t nt alternative lookahead s hs => ?_⟩
  · rw [← Document.all_checks]
    constructor
    · rintro ⟨c, hc⟩
      exact (Check.judge_eq_ok_iff.mp hc).1
    · intro hall
      exact ⟨d.described, Check.judge_of_all hall _⟩
  · exact ⟨_, (ParsingTable.insert_eq_ok_iff _ _ _ _ _ _).mpr
      ⟨Document.isSome_production?_of_alternativeOf? hs, rfl⟩⟩

/-- A spelling of two characters, then a number for an alternative, and an unknown name in the
table: the shape of the rule is looked at first. -/
theorem a_number_for_an_alternative_is_reported_first :
    ∃ d, Document.ofText ("\x7b\"name\": \"g\", \"start\": \"S\", " ++
      "\"rules\": \x7b\"S\": [[\"ab\"], 3]\x7d, \"table\": \x7b\"X\": \x7b\x7d\x7d\x7d") = .ok d ∧
      ¬ d.Loadable ∧ Check.firstError? d.checks = some (.malformed .production) := by
  refine Exists.imp (fun d hd => ⟨hd, ?_⟩) (exists_of_isOk ?_)
  · obtain ⟨hloads, _, herror, _⟩ := loading_decides_and_reports_the_first_failure hd
    have hfault : ofText ("\x7b\"name\": \"g\", \"start\": \"S\", " ++
        "\"rules\": \x7b\"S\": [[\"ab\"], 3]\x7d, \"table\": \x7b\"X\": \x7b\x7d\x7d\x7d") =
        .error (.malformed .production) := by cbv
    refine ⟨fun hloadable => ?_, (herror _).mp hfault⟩
    obtain ⟨c, hc⟩ := hloads.mpr hloadable
    rw [hfault] at hc
    cases hc
  · cbv

end Configuration

end TopDown
