-- A grammar: named non-terminals with their ordered alternatives and a start symbol. It is
-- built up by registering names and appending alternatives; a number that was never
-- registered has no name, but may have alternatives.
import TopDown.Rows
import TopDown.Symbol

namespace TopDown

structure Grammar where
  name : String
  /-- The number of the start symbol. -/
  start : Nat
  /-- The names of the non-terminals; a name's place is its number. -/
  names : List String
  /-- The alternatives, by number of the non-terminal. -/
  rules : List (List Production)
  deriving DecidableEq, Repr

namespace Grammar

/-- No names and no rules. -/
def new (name : String) : Grammar := ⟨name, 0, [], []⟩

/-! ## Names -/

/-- The number of a name. -/
def idOf? (g : Grammar) (name : String) : Option Nat := g.names.findIdx? (· == name)

/-- The name of a number. -/
def nameOf? (g : Grammar) (id : Nat) : Option String := g.names[id]?

/-- The name of a number, a question mark if it has none. -/
def nameOf (g : Grammar) (id : Nat) : String := (g.nameOf? id).getD "?"

/-- The number of a name, which is registered last if it is new. The rules stay. -/
def intern (g : Grammar) (name : String) : Nat × Grammar :=
  match g.idOf? name with
  | some id => (id, g)
  | none => (g.names.length, { g with names := g.names ++ [name] })

/-- Register a non-terminal, with a row for its alternatives. -/
def addNonTerminal (g : Grammar) (name : String) : Nat × Grammar :=
  let (id, g) := g.intern name
  (id, { g with rules := Rows.grow (id + 1) g.rules })

/-! ## Alternatives -/

/-- The ordered alternatives of a non-terminal. -/
def productions (g : Grammar) (nt : Nat) : List Production := Rows.row g.rules nt

/-- One alternative of a non-terminal. -/
def production? (g : Grammar) (nt alternative : Nat) : Option Production :=
  (g.productions nt)[alternative]?

/-- Append an alternative to `lhs` and tell its place there. A right-hand side of no symbols
is kept as the empty marker. -/
def addProduction (g : Grammar) (lhs : Nat) (rhs : List Symbol) : Nat × Grammar :=
  let rhs := if rhs.isEmpty then [.empty] else rhs
  ((g.productions lhs).length, { g with rules := Rows.push lhs ⟨lhs, rhs⟩ g.rules })

/-- Every production, by number of its non-terminal. -/
def allProductions (g : Grammar) : List Production := g.rules.flatten

def startSymbol (g : Grammar) : Symbol := .nonTerminal g.start

/-- The terminals of the right-hand sides in order of first appearance, then the end mark. -/
def terminals (g : Grammar) : List Symbol :=
  let found := g.allProductions.flatMap fun p => p.rhs.filter Symbol.isTerminal
  found.foldl (fun seen x => if x ∈ seen then seen else seen ++ [x]) [] ++ [.endMark]

/-! ## Laws -/

/-- A right-hand side is never kept without symbols. -/
theorem productions_addProduction (g : Grammar) (lhs nt : Nat) (rhs : List Symbol) :
    (g.addProduction lhs rhs).2.productions nt =
      if lhs = nt then
        g.productions nt ++ [⟨lhs, if rhs.isEmpty then [.empty] else rhs⟩]
      else g.productions nt := by
  simp only [addProduction, productions, Rows.row_push]

/-- The place that is told is where the alternative stands. -/
theorem production?_addProduction (g : Grammar) (lhs : Nat) (rhs : List Symbol) :
    (g.addProduction lhs rhs).2.production? lhs (g.addProduction lhs rhs).1 =
      some ⟨lhs, if rhs.isEmpty then [.empty] else rhs⟩ := by
  rw [production?, productions_addProduction, if_pos rfl]
  simp [addProduction]

/-- Registering a name leaves all alternatives as they are. -/
theorem productions_addNonTerminal (g : Grammar) (name : String) (nt : Nat) :
    (g.addNonTerminal name).2.productions nt = g.productions nt := by
  unfold addNonTerminal intern productions
  cases g.idOf? name <;> exact Rows.row_grow _ _ _

/-- A non-terminal with an alternative has a row. -/
theorem lt_length_of_production? {g : Grammar} {nt k : Nat} {p : Production}
    (h : g.production? nt k = some p) : nt < g.rules.length := by
  rcases Nat.lt_or_ge nt g.rules.length with hlt | hge
  · exact hlt
  · simp [production?, productions, Rows.row, List.getElem?_eq_none hge] at h

theorem mem_productions_of_production? {g : Grammar} {nt k : Nat} {p : Production}
    (h : g.production? nt k = some p) : p ∈ g.productions nt := List.mem_of_getElem? h

theorem mem_allProductions_iff {g : Grammar} {p : Production} :
    p ∈ g.allProductions ↔ ∃ nt, p ∈ g.productions nt := by
  unfold allProductions productions Rows.row
  rw [List.mem_flatten]
  constructor
  · rintro ⟨row, hrow, hp⟩
    obtain ⟨nt, hnt⟩ := List.mem_iff_getElem?.mp hrow
    exact ⟨nt, by rwa [hnt]⟩
  · rintro ⟨nt, hp⟩
    cases hrow : g.rules[nt]? with
    | none => simp [hrow] at hp
    | some row =>
      rw [hrow] at hp
      exact ⟨row, List.mem_of_getElem? hrow, hp⟩

/-- All symbols are collected. -/
theorem mem_foldl_seen {x : Symbol} (xs seen : List Symbol) :
    x ∈ xs.foldl (fun seen x => if x ∈ seen then seen else seen ++ [x]) seen ↔
      x ∈ seen ∨ x ∈ xs := by
  induction xs generalizing seen with
  | nil => simp
  | cons y ys ih =>
    rw [List.foldl_cons, ih]
    split
    · next hy =>
      have hseen : x = y → x ∈ seen := fun h => h ▸ hy
      simp only [List.mem_cons]
      exact ⟨fun h => h.imp id .inr, fun h => h.elim .inl fun h => h.imp hseen id⟩
    · rw [List.mem_append, List.mem_singleton, List.mem_cons, or_assoc]

/-- None is collected twice. -/
theorem nodup_foldl_seen (xs : List Symbol) {seen : List Symbol} (h : seen.Nodup) :
    (xs.foldl (fun seen x => if x ∈ seen then seen else seen ++ [x]) seen).Nodup := by
  induction xs generalizing seen with
  | nil => exact h
  | cons x xs ih =>
    rw [List.foldl_cons]
    split
    · exact ih h
    · next hnew =>
      have hother : ∀ y ∈ seen, y ≠ x := fun y hy heq => hnew (heq ▸ hy)
      exact ih (List.nodup_append.mpr ⟨h, by simp, by simpa using hother⟩)

/-- The end mark and what occurs in the right-hand sides, other than non-terminals and markers. -/
theorem mem_terminals_iff {g : Grammar} {x : Symbol} :
    x ∈ g.terminals ↔
      (x.isTerminal = true ∧ ∃ p ∈ g.allProductions, x ∈ p.rhs) ∨ x = .endMark := by
  unfold terminals
  rw [List.mem_append, List.mem_singleton, mem_foldl_seen, List.mem_flatMap]
  simp only [List.not_mem_nil, false_or, List.mem_filter]
  constructor
  · rintro (⟨p, hp, hx, hterminal⟩ | hmark)
    · exact .inl ⟨hterminal, p, hp, hx⟩
    · exact .inr hmark
  · rintro (⟨hterminal, p, hp, hx⟩ | hmark)
    · exact .inl ⟨p, hp, hx, hterminal⟩
    · exact .inr hmark

/-- No terminal is listed twice, and the end mark is none of them. -/
theorem nodup_terminals (g : Grammar) : g.terminals.Nodup := by
  unfold terminals
  refine List.nodup_append.mpr ⟨nodup_foldl_seen _ List.nodup_nil, by simp, ?_⟩
  rintro x hx y hy rfl
  rw [mem_foldl_seen, List.mem_flatMap] at hx
  simp only [List.not_mem_nil, false_or, List.mem_filter, List.mem_singleton] at hx hy
  obtain ⟨p, _, _, hterminal⟩ := hx
  rw [hy] at hterminal
  cases hterminal

theorem nameOf?_eq {g : Grammar} {id : Nat} (h : id < g.names.length) :
    g.nameOf? id = some (g.nameOf id) := by
  rw [nameOf, nameOf?, List.getElem?_eq_getElem h]
  rfl

/-- A name that has a number is found under it. -/
theorem nameOf?_of_idOf? {g : Grammar} {name : String} {id : Nat} (h : g.idOf? name = some id) :
    g.nameOf? id = some name := by
  obtain ⟨hlt, hname, _⟩ := List.findIdx?_eq_some_iff_getElem.mp h
  rw [nameOf?, List.getElem?_eq_getElem hlt, eq_of_beq hname]

theorem lt_of_idOf? {g : Grammar} {name : String} {id : Nat} (h : g.idOf? name = some id) :
    id < g.names.length := (List.getElem?_eq_some_iff.mp (nameOf?_of_idOf? h)).1

theorem idOf?_eq_none_iff {g : Grammar} {name : String} :
    g.idOf? name = none ↔ name ∉ g.names := by
  rw [idOf?, List.findIdx?_eq_none_iff]
  simp only [beq_eq_false_iff_ne]
  exact ⟨fun h hmem => h name hmem rfl, fun h other hmem heq => h (heq ▸ hmem)⟩

/-- Where no name stands twice, each number is found by its name. -/
theorem idOf?_of_nameOf? {g : Grammar} (hg : g.names.Nodup) {name : String} {id : Nat}
    (h : g.nameOf? id = some name) : g.idOf? name = some id := by
  cases hid : g.idOf? name with
  | none => exact absurd (List.mem_of_getElem? h) (idOf?_eq_none_iff.mp hid)
  | some other =>
    obtain ⟨hlt, hname⟩ := List.getElem?_eq_some_iff.mp h
    obtain ⟨hlt', hname'⟩ := List.getElem?_eq_some_iff.mp (nameOf?_of_idOf? hid)
    rw [(List.getElem_inj hg).mp (hname'.trans hname.symm)]

theorem names_addNonTerminal_of_not_mem {g : Grammar} {name : String} (h : name ∉ g.names) :
    (g.addNonTerminal name).2.names = g.names ++ [name] := by
  simp only [addNonTerminal, intern, idOf?_eq_none_iff.mpr h]

/-- A grammar is told by its names and its alternatives. -/
theorem eq_of_productions {g h : Grammar} (hname : h.name = g.name) (hstart : h.start = g.start)
    (hnames : h.names = g.names) (hlen : h.rules.length = g.rules.length)
    (hrules : ∀ nt, h.productions nt = g.productions nt) : h = g := by
  have hrows : h.rules = g.rules := Rows.ext hlen hrules
  cases h
  cases g
  simp only at hname hstart hnames hrows
  subst hname hstart hnames hrows
  rfl

end Grammar

end TopDown
