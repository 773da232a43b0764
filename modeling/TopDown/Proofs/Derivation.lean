-- Derivations. A sentential form is a list of symbols, and one step puts an alternative, without
-- its empty markers, in the place of its non-terminal. What a form derives at all it derives from
-- the left, so the language is told by leftmost derivations, and they are told by the
-- alternatives that they apply.
import Mathlib.Logic.Relation
import TopDown.Grammar

namespace TopDown

/-- One alternative: the number of a non-terminal, and the place among its alternatives. -/
abbrev Choice := Nat × Nat

/-- The terminals of a string. -/
def symbols (w : List Char) : List Symbol := w.map .terminal

@[simp] theorem symbols_nil : symbols [] = [] := rfl

@[simp] theorem symbols_cons (c : Char) (w : List Char) :
    symbols (c :: w) = .terminal c :: symbols w := rfl

@[simp] theorem symbols_append (u v : List Char) : symbols (u ++ v) = symbols u ++ symbols v :=
  List.map_append

theorem isNonTerminal_of_mem_symbols {w : List Char} {x : Symbol} (h : x ∈ symbols w) :
    x.isNonTerminal = false := by
  obtain ⟨c, _, rfl⟩ := List.mem_map.mp h
  rfl

namespace Grammar

/-- One step, at any place of the form. -/
def Rewrites (g : Grammar) (x y : List Symbol) : Prop :=
  ∃ left right nt k p, g.production? nt k = some p ∧
    x = left ++ .nonTerminal nt :: right ∧ y = left ++ p.visible ++ right

/-- Any number of steps. -/
def Derives (g : Grammar) : List Symbol → List Symbol → Prop := Relation.ReflTransGen g.Rewrites

/-- The language of the grammar: the strings that its start symbol derives. -/
def Generates (g : Grammar) (w : List Char) : Prop := g.Derives [g.startSymbol] (symbols w)

/-- Steps at the leftmost non-terminal only, with the alternatives that they apply in order. -/
inductive Leftmost (g : Grammar) : List Symbol → List Choice → List Symbol → Prop
  | refl (x : List Symbol) : Leftmost g x [] x
  | step {left right : List Symbol} {nt k : Nat} {p : Production} {cs : List Choice}
      {y : List Symbol} :
      (∀ x ∈ left, x.isNonTerminal = false) → g.production? nt k = some p →
      Leftmost g (left ++ p.visible ++ right) cs y →
      Leftmost g (left ++ .nonTerminal nt :: right) ((nt, k) :: cs) y

/-- A leftmost derivation of a string, read from left to right: a terminal in front is the next
character, and a non-terminal in front is replaced. -/
inductive Yields (g : Grammar) : List Symbol → List Choice → List Char → Prop
  | nil : Yields g [] [] []
  | terminal {c : Char} {xs : List Symbol} {cs : List Choice} {w : List Char} :
      Yields g xs cs w → Yields g (.terminal c :: xs) cs (c :: w)
  | nonTerminal {nt k : Nat} {p : Production} {xs : List Symbol} {cs : List Choice}
      {w : List Char} :
      g.production? nt k = some p → Yields g (p.visible ++ xs) cs w →
      Yields g (.nonTerminal nt :: xs) ((nt, k) :: cs) w

variable {g : Grammar}

/-! ## Leftmost derivations -/

theorem Leftmost.trans {x y z : List Symbol} {cs ds : List Choice} (h : g.Leftmost x cs y)
    (h' : g.Leftmost y ds z) : g.Leftmost x (cs ++ ds) z := by
  induction h with
  | refl => exact h'
  | step hleft hp _ ih => exact .step hleft hp (ih h')

/-- One more step at the end. -/
theorem Leftmost.snoc {x left right : List Symbol} {cs : List Choice} {nt k : Nat}
    {p : Production} (h : g.Leftmost x cs (left ++ .nonTerminal nt :: right))
    (hleft : ∀ x ∈ left, x.isNonTerminal = false) (hp : g.production? nt k = some p) :
    g.Leftmost x (cs ++ [(nt, k)]) (left ++ p.visible ++ right) :=
  h.trans (.step hleft hp (.refl _))

/-- What stands around a form stays around it. -/
theorem Leftmost.append {x y : List Symbol} {cs : List Choice} (h : g.Leftmost x cs y)
    (left right : List Symbol) (hleft : ∀ x ∈ left, x.isNonTerminal = false) :
    g.Leftmost (left ++ x ++ right) cs (left ++ y ++ right) := by
  induction h with
  | refl => exact .refl _
  | @step l r nt k p cs y hl hp _ ih =>
    have hpre : ∀ z ∈ left ++ l, z.isNonTerminal = false := by
      intro z hz
      rcases List.mem_append.mp hz with h | h
      · exact hleft z h
      · exact hl z h
    have hstep : g.Leftmost (left ++ l ++ .nonTerminal nt :: (r ++ right)) ((nt, k) :: cs)
        (left ++ y ++ right) := .step hpre hp (by simpa using ih)
    simpa using hstep

theorem Leftmost.derives {x y : List Symbol} {cs : List Choice} (h : g.Leftmost x cs y) :
    g.Derives x y := by
  induction h with
  | refl => exact .refl
  | step _ hp _ ih => exact .head ⟨_, _, _, _, _, hp, rfl, rfl⟩ ih

/-! ## Strings, from left to right -/

theorem yields_symbols (w : List Char) : g.Yields (symbols w) [] w := by
  induction w with
  | nil => exact .nil
  | cons c w ih => exact .terminal ih

theorem yields_nonTerminal_iff {nt : Nat} {xs : List Symbol} {cs : List Choice} {w : List Char} :
    g.Yields (.nonTerminal nt :: xs) cs w ↔ ∃ k p ds, cs = (nt, k) :: ds ∧
      g.production? nt k = some p ∧ g.Yields (p.visible ++ xs) ds w := by
  constructor
  · intro h
    cases h with
    | nonTerminal hp h => exact ⟨_, _, _, rfl, hp, h⟩
  · rintro ⟨k, p, ds, rfl, hp, h⟩
    exact .nonTerminal hp h

theorem yields_terminal_iff {c : Char} {xs : List Symbol} {cs : List Choice} {w : List Char} :
    g.Yields (.terminal c :: xs) cs w ↔ ∃ v, w = c :: v ∧ g.Yields xs cs v := by
  constructor
  · intro h
    cases h with
    | terminal h => exact ⟨_, rfl, h⟩
  · rintro ⟨v, rfl, h⟩
    exact .terminal h

theorem yields_nil_iff {cs : List Choice} {w : List Char} :
    g.Yields [] cs w ↔ cs = [] ∧ w = [] := by
  constructor
  · intro h
    cases h with
    | nil => exact ⟨rfl, rfl⟩
  · rintro ⟨rfl, rfl⟩
    exact .nil

theorem Yields.append {xs ys : List Symbol} {cs ds : List Choice} {u v : List Char}
    (h : g.Yields xs cs u) (h' : g.Yields ys ds v) : g.Yields (xs ++ ys) (cs ++ ds) (u ++ v) := by
  induction h with
  | nil => exact h'
  | terminal _ ih => exact .terminal ih
  | nonTerminal hp _ ih => exact .nonTerminal hp (by simpa using ih)

/-- A string of two forms in a row is a string of the first and a string of the second. -/
theorem Yields.split {xs ys : List Symbol} {cs : List Choice} {w : List Char}
    (h : g.Yields (xs ++ ys) cs w) : ∃ cs₁ cs₂ u v, cs = cs₁ ++ cs₂ ∧ w = u ++ v ∧
      g.Yields xs cs₁ u ∧ g.Yields ys cs₂ v := by
  generalize hz : xs ++ ys = zs at h
  induction h generalizing xs with
  | nil =>
    obtain ⟨rfl, rfl⟩ := List.append_eq_nil_iff.mp hz
    exact ⟨[], [], [], [], rfl, rfl, .nil, .nil⟩
  | @terminal c zs cs w h ih =>
    cases xs with
    | nil =>
      rw [List.nil_append] at hz
      subst hz
      exact ⟨[], cs, [], c :: w, rfl, rfl, .nil, .terminal h⟩
    | cons x xs =>
      obtain ⟨rfl, hzs⟩ := List.cons.inj hz
      obtain ⟨cs₁, cs₂, u, v, rfl, rfl, h₁, h₂⟩ := ih hzs
      exact ⟨cs₁, cs₂, c :: u, v, rfl, rfl, .terminal h₁, h₂⟩
  | @nonTerminal nt k p zs cs w hp h ih =>
    cases xs with
    | nil =>
      rw [List.nil_append] at hz
      subst hz
      exact ⟨[], (nt, k) :: cs, [], w, rfl, rfl, .nil, .nonTerminal hp h⟩
    | cons x xs =>
      obtain ⟨rfl, rfl⟩ := List.cons.inj hz
      obtain ⟨cs₁, cs₂, u, v, rfl, rfl, h₁, h₂⟩ := ih (List.append_assoc p.visible xs ys)
      exact ⟨(nt, k) :: cs₁, cs₂, u, v, rfl, rfl, .nonTerminal hp h₁, h₂⟩

theorem Yields.leftmost {xs : List Symbol} {cs : List Choice} {w : List Char}
    (h : g.Yields xs cs w) : g.Leftmost xs cs (symbols w) := by
  induction h with
  | nil => exact .refl _
  | @terminal c xs cs w _ ih =>
    have hc : ∀ x ∈ [Symbol.terminal c], x.isNonTerminal = false := by simp [Symbol.isNonTerminal]
    simpa using ih.append [.terminal c] [] hc
  | @nonTerminal nt k p xs cs w hp _ ih =>
    have hnil : ∀ x ∈ ([] : List Symbol), x.isNonTerminal = false := by simp
    exact .step hnil hp ih

/-- Symbols that are no non-terminals can only be read as characters. -/
theorem Yields.replace {left xs ys : List Symbol} {cs ds : List Choice} {w : List Char}
    (hleft : ∀ x ∈ left, x.isNonTerminal = false)
    (hxy : ∀ v, g.Yields xs cs v → g.Yields ys ds v) (h : g.Yields (left ++ xs) cs w) :
    g.Yields (left ++ ys) ds w := by
  induction left generalizing w with
  | nil => exact hxy w h
  | cons x left ih =>
    have hx := hleft x List.mem_cons_self
    cases h with
    | terminal h => exact .terminal (ih (fun x hx => hleft x (List.mem_cons_of_mem _ hx)) h)
    | nonTerminal => simp [Symbol.isNonTerminal] at hx

theorem Leftmost.yields {xs ys : List Symbol} {cs : List Choice} (h : g.Leftmost xs cs ys)
    {w : List Char} (hw : ys = symbols w) : g.Yields xs cs w := by
  induction h with
  | refl => exact hw ▸ yields_symbols w
  | step hleft hp _ ih =>
    have h := ih hw
    rw [List.append_assoc] at h
    exact h.replace hleft fun _ h => .nonTerminal hp h

theorem leftmost_symbols_iff {xs : List Symbol} {cs : List Choice} {w : List Char} :
    g.Leftmost xs cs (symbols w) ↔ g.Yields xs cs w :=
  ⟨fun h => h.yields rfl, Yields.leftmost⟩

/-! ## Steps at any place -/

/-- A step backwards from a form with a string leads to a form with that string. -/
theorem Yields.of_rewrites {x y : List Symbol} {cs : List Choice} {w : List Char}
    (hxy : g.Rewrites x y) (h : g.Yields y cs w) : ∃ ds, g.Yields x ds w := by
  obtain ⟨left, right, nt, k, p, hp, rfl, rfl⟩ := hxy
  rw [List.append_assoc] at h
  obtain ⟨cs₁, cs₂, u, v, rfl, rfl, hleft, hrest⟩ := h.split
  exact ⟨_, hleft.append (.nonTerminal hp hrest)⟩

theorem yields_of_derives {x : List Symbol} {w : List Char} (h : g.Derives x (symbols w)) :
    ∃ cs, g.Yields x cs w := by
  induction h using Relation.ReflTransGen.head_induction_on with
  | refl => exact ⟨[], yields_symbols w⟩
  | head hxy _ ih =>
    obtain ⟨cs, h⟩ := ih
    exact h.of_rewrites hxy

theorem Yields.derives {x : List Symbol} {cs : List Choice} {w : List Char}
    (h : g.Yields x cs w) : g.Derives x (symbols w) := h.leftmost.derives

/-- A form that derives a string derives it from the left. -/
theorem derives_symbols_iff {x : List Symbol} {w : List Char} :
    g.Derives x (symbols w) ↔ ∃ cs, g.Leftmost x cs (symbols w) := by
  constructor
  · intro h
    obtain ⟨cs, hcs⟩ := yields_of_derives h
    exact ⟨cs, hcs.leftmost⟩
  · rintro ⟨cs, h⟩
    exact h.derives

/-- What stands around a form stays around it, whatever it is. -/
theorem Rewrites.around {x y : List Symbol} (h : g.Rewrites x y) (left right : List Symbol) :
    g.Rewrites (left ++ x ++ right) (left ++ y ++ right) := by
  obtain ⟨l, r, nt, k, p, hp, rfl, rfl⟩ := h
  exact ⟨left ++ l, r ++ right, nt, k, p, hp, by simp, by simp⟩

theorem Derives.around {x y : List Symbol} (h : g.Derives x y) (left right : List Symbol) :
    g.Derives (left ++ x ++ right) (left ++ y ++ right) := by
  induction h with
  | refl => exact .refl
  | tail _ hstep ih => exact ih.tail (hstep.around left right)

theorem Derives.append {x y x' y' : List Symbol} (h : g.Derives x y) (h' : g.Derives x' y') :
    g.Derives (x ++ x') (y ++ y') := by
  have hleft := h.around [] x'
  have hright := h'.around y []
  simp only [List.nil_append, List.append_nil] at hleft hright
  exact hleft.trans hright

theorem derives_of_production? {nt k : Nat} {p : Production} (hp : g.production? nt k = some p) :
    g.Derives [.nonTerminal nt] p.visible :=
  .single ⟨[], [], nt, k, p, hp, rfl, by simp⟩

/-! ## The end mark -/

/-- No right-hand side holds the end mark. -/
def NoEndMark (g : Grammar) : Prop :=
  ∀ nt k p, g.production? nt k = some p → .endMark ∉ p.rhs

theorem NoEndMark.not_mem_visible (hg : g.NoEndMark) {nt k : Nat} {p : Production}
    (hp : g.production? nt k = some p) : .endMark ∉ p.visible := by
  intro h
  exact hg nt k p hp (List.mem_filter.mp h).1

theorem empty_not_mem_visible (p : Production) : .empty ∉ p.visible := by
  simp [Production.visible, Symbol.isEmpty]

/-- What all symbols of a form and of every alternative that is applied are like, all that are
derived are like. -/
theorem Leftmost.forall_mem {P : Symbol → Prop} {x y : List Symbol} {cs : List Choice}
    (h : g.Leftmost x cs y)
    (hg : ∀ nt k p, (nt, k) ∈ cs → g.production? nt k = some p → ∀ m ∈ p.visible, P m)
    (hx : ∀ m ∈ x, P m) : ∀ m ∈ y, P m := by
  induction h with
  | refl => exact hx
  | @step left right nt k p cs y _ hp _ ih =>
    refine ih (fun nt k p hc => hg nt k p (List.mem_cons_of_mem _ hc)) fun m hm => ?_
    rcases List.mem_append.mp hm with hm | hm
    · rcases List.mem_append.mp hm with hm | hm
      · exact hx m (List.mem_append_left _ hm)
      · exact hg nt k p List.mem_cons_self hp m hm
    · exact hx m (List.mem_append_right _ (List.mem_cons_of_mem _ hm))

/-- A symbol that no alternative brings in is not brought in at all. -/
theorem Leftmost.not_mem {m : Symbol} {x y : List Symbol} {cs : List Choice}
    (h : g.Leftmost x cs y) (hg : ∀ nt k p, g.production? nt k = some p → m ∉ p.visible)
    (hx : m ∉ x) : m ∉ y := by
  intro hy
  refine h.forall_mem (P := fun z => z ≠ m) ?_ ?_ m hy rfl
  · rintro nt k p _ hp z hz rfl
    exact hg nt k p hp hz
  · rintro z hz rfl
    exact hx hz

end Grammar

end TopDown
