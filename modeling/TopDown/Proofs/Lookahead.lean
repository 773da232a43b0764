-- What one symbol of lookahead can tell. FIRST and FOLLOW lists that are closed under the rules
-- of a grammar hold whatever a derivation of any length brings to the front or behind a
-- non-terminal. A table with an entry for each cell that such lists predict is predictive: it
-- knows the alternative wherever the rest of a string can still be derived.
import TopDown.Proofs.Derivation
import TopDown.Sets
import TopDown.Table

namespace TopDown

/-- The lookahead in front of a string: its first character, or the end mark. -/
def ahead : List Char → Symbol
  | [] => .endMark
  | c :: _ => .terminal c

theorem ahead_ne_empty (v : List Char) : ahead v ≠ .empty := by
  cases v <;> simp [ahead]

/-- Where a leftmost derivation from the start symbol has come to a non-terminal, and one of its
alternatives leads to the string that is left, the table gives that alternative. -/
def Predictive (g : Grammar) (t : ParsingTable) : Prop :=
  ∀ (cs : List Choice) (u : List Char) (nt : Nat) (rest : List Symbol) (k : Nat) (p : Production)
    (v : List Char),
    g.Leftmost [g.startSymbol] cs (symbols u ++ .nonTerminal nt :: rest) →
    g.production? nt k = some p → g.Derives (p.visible ++ rest) (symbols v) →
    t.lookup nt (ahead v) = some k

namespace SymbolSets

/-! ## The lists of a form -/

/-- The members of `f`, with those of `rest` for the empty marker. -/
def chain (f rest : List Symbol) : List Symbol :=
  f.filter (fun x => !x.isEmpty) ++ if .empty ∈ f then rest else []

theorem mem_chain {f rest : List Symbol} {x : Symbol} :
    x ∈ chain f rest ↔ (x ∈ f ∧ x ≠ .empty) ∨ (.empty ∈ f ∧ x ∈ rest) := by
  have hx : (!x.isEmpty) = true ↔ x ≠ .empty := by cases x <;> simp [Symbol.isEmpty]
  unfold chain
  rw [List.mem_append, List.mem_filter, hx]
  split <;> simp_all

/-- FIRST of a form: the characters that can come first, and the empty marker if there may be
none. -/
def firstOf (s : SymbolSets) : List Symbol → List Symbol
  | [] => [.empty]
  | .nonTerminal nt :: xs => chain (s.first nt) (s.firstOf xs)
  | .empty :: xs => s.firstOf xs
  | x :: _ => [x]

/-- The lookaheads for an alternative of `nt` with these symbols. -/
def predict (s : SymbolSets) (nt : Nat) (xs : List Symbol) : List Symbol :=
  chain (s.firstOf xs) (s.follow nt)

theorem mem_firstOf_append (s : SymbolSets) (xs ys : List Symbol) (x : Symbol) :
    x ∈ s.firstOf (xs ++ ys) ↔
      (x ∈ s.firstOf xs ∧ x ≠ .empty) ∨ (.empty ∈ s.firstOf xs ∧ x ∈ s.firstOf ys) := by
  induction xs with
  | nil => simp [firstOf]
  | cons z zs ih =>
    cases z with
    | terminal c => simp only [List.cons_append, firstOf, List.mem_singleton]; grind
    | endMark => simp only [List.cons_append, firstOf, List.mem_singleton]; grind
    | empty => simpa only [List.cons_append, firstOf] using ih
    | nonTerminal nt =>
      simp only [List.cons_append, firstOf, mem_chain, ih]
      grind

/-! ## Lists that are closed under the rules -/

/-- What may stand behind a non-terminal of these symbols is among its followers, where the
symbols are an alternative of `nt`. -/
def follows (s : SymbolSets) (nt : Nat) : List Symbol → Bool
  | [] => true
  | .nonTerminal b :: right =>
    (s.predict nt right).all (fun x => decide (x ∈ s.follow b)) && s.follows nt right
  | _ :: right => s.follows nt right

theorem mem_follow_of_follows {s : SymbolSets} {nt b : Nat} {left right : List Symbol}
    (h : s.follows nt (left ++ .nonTerminal b :: right) = true) {x : Symbol}
    (hx : x ∈ s.predict nt right) : x ∈ s.follow b := by
  induction left with
  | nil =>
    simp only [List.nil_append, follows, Bool.and_eq_true, List.all_eq_true,
      decide_eq_true_eq] at h
    exact h.1 x hx
  | cons z zs ih =>
    cases z with
    | nonTerminal c =>
      simp only [List.cons_append, follows, Bool.and_eq_true] at h
      exact ih h.2
    | terminal c => exact ih h
    | empty => exact ih h
    | endMark => exact ih h

structure Closed (s : SymbolSets) (g : Grammar) : Prop where
  start : .endMark ∈ s.follow g.start
  first : ∀ nt < g.rules.length, ∀ p ∈ g.productions nt,
    ∀ x ∈ s.firstOf p.visible, x ∈ s.first nt
  follow : ∀ nt < g.rules.length, ∀ p ∈ g.productions nt, s.follows nt p.visible = true

/-- The table has an entry for each lookahead of each alternative. -/
def Covered (s : SymbolSets) (g : Grammar) (t : ParsingTable) : Prop :=
  ∀ nt < g.rules.length, ∀ k < (g.productions nt).length, ∀ p ∈ g.production? nt k,
    ∀ x ∈ s.predict nt p.visible, t.lookup nt x = some k

instance (s : SymbolSets) (g : Grammar) (t : ParsingTable) : Decidable (s.Covered g t) := by
  unfold Covered
  infer_instance

/-- How a string begins, or that it is empty, is told by the list. -/
def Begins (f : List Symbol) (w : List Char) : Prop :=
  (w = [] → .empty ∈ f) ∧ ∀ c v, w = c :: v → .terminal c ∈ f

variable {s : SymbolSets} {g : Grammar}

/-- FIRST holds what a derivation of a string brings to the front. -/
theorem Closed.begins (h : s.Closed g) {xs : List Symbol} {cs : List Choice} {w : List Char}
    (hy : g.Yields xs cs w) : Begins (s.firstOf xs) w := by
  induction hy with
  | nil => simp [Begins, firstOf]
  | terminal _ _ => simp [Begins, firstOf]
  | @nonTerminal nt k p xs cs w hp _ ih =>
    have hfirst := h.first nt (Grammar.lt_length_of_production? hp) p
      (Grammar.mem_productions_of_production? hp)
    have hmem : ∀ x ∈ s.firstOf (p.visible ++ xs), x ∈ s.firstOf (.nonTerminal nt :: xs) := by
      intro x hx
      rw [mem_firstOf_append] at hx
      simp only [firstOf, mem_chain]
      rcases hx with ⟨hx, hne⟩ | ⟨he, hx⟩
      · exact Or.inl ⟨hfirst x hx, hne⟩
      · exact Or.inr ⟨hfirst _ he, hx⟩
    exact ⟨fun hw => hmem _ (ih.1 hw), fun c v hw => hmem _ (ih.2 c v hw)⟩

/-- The lookahead in front of two strings in a row, by the list of the first. -/
theorem Begins.ahead_mem {f rest : List Symbol} {u v : List Char} (h : Begins f u)
    (hv : ahead v ∈ rest) : ahead (u ++ v) ∈ chain f rest := by
  rw [mem_chain]
  cases u with
  | nil => exact Or.inr ⟨h.1 rfl, hv⟩
  | cons c u => exact Or.inl ⟨h.2 c u rfl, ahead_ne_empty (c :: u)⟩

/-- The followers of each non-terminal of the form hold each lookahead behind it. -/
def FollowsIn (s : SymbolSets) (g : Grammar) (form : List Symbol) : Prop :=
  ∀ left b right cs v, form = left ++ .nonTerminal b :: right → g.Yields right cs v →
    ahead v ∈ s.follow b

theorem followsIn_start (h : s.Closed g) : s.FollowsIn g [g.startSymbol] := by
  intro left b right cs v hform hy
  rcases left with _ | ⟨x, left⟩
  · obtain ⟨hb, rfl⟩ := List.cons.inj hform
    cases hb
    obtain ⟨_, rfl⟩ := Grammar.yields_nil_iff.mp hy
    exact h.start
  · obtain ⟨_, hnil⟩ := List.cons.inj hform
    simp at hnil

/-- Where a symbol stands in two lists in a row. -/
theorem mem_left_or_right {α : Type} {xs ys left right : List α} {b : α}
    (h : xs ++ ys = left ++ b :: right) :
    (∃ m, xs = left ++ b :: m ∧ right = m ++ ys) ∨ ∃ m, left = xs ++ m ∧ ys = m ++ b :: right := by
  rcases List.append_eq_append_iff.mp h with ⟨m, hm, hys⟩ | ⟨m, hxs, hb⟩
  · exact Or.inr ⟨m, hm, hys⟩
  · rcases m with _ | ⟨z, m⟩
    · exact Or.inr ⟨[], by simp [hxs], by simpa using hb.symm⟩
    · obtain ⟨rfl, rfl⟩ := List.cons.inj hb
      exact Or.inl ⟨m, hxs, rfl⟩

/-- One step keeps it, wherever it is taken. -/
theorem FollowsIn.rewrites (h : s.Closed g) {x y : List Symbol} (hx : s.FollowsIn g x)
    (hxy : g.Rewrites x y) : s.FollowsIn g y := by
  obtain ⟨l, r, nt, k, p, hp, rfl, rfl⟩ := hxy
  intro left b right cs v hform hy
  -- The non-terminal stands before, inside or behind the alternative that was put in.
  rcases mem_left_or_right hform with ⟨m, hm, rfl⟩ | ⟨m, _, rfl⟩
  · rcases mem_left_or_right hm with ⟨n, rfl, rfl⟩ | ⟨n, _, hn⟩
    · rw [List.append_assoc] at hy
      obtain ⟨cs₁, cs₂, v₁, v₂, rfl, rfl, hn₁, hrest⟩ := hy.split
      exact hx left b (n ++ .nonTerminal nt :: r) _ _ (by simp)
        (hn₁.append (.nonTerminal hp hrest))
    · obtain ⟨cs₁, cs₂, v₁, v₂, rfl, rfl, hm₁, hr⟩ := hy.split
      have hfollow := h.follow nt (Grammar.lt_length_of_production? hp) p
        (Grammar.mem_productions_of_production? hp)
      rw [hn] at hfollow
      exact mem_follow_of_follows hfollow
        ((h.begins hm₁).ahead_mem (hx l nt r cs₂ v₂ rfl hr))
  · exact hx (l ++ .nonTerminal nt :: m) b right cs v (by simp) hy

theorem Closed.followsIn (h : s.Closed g) {form : List Symbol}
    (hd : g.Derives [g.startSymbol] form) : s.FollowsIn g form := by
  induction hd with
  | refl => exact followsIn_start h
  | tail _ hxy ih => exact ih.rewrites h hxy

/-! ## Prediction -/

/-- A table that covers closed lists is predictive. -/
theorem Closed.predictive (h : s.Closed g) {t : ParsingTable} (ht : s.Covered g t) :
    Predictive g t := by
  intro cs u nt rest k p v hleft hp hd
  obtain ⟨ds, hy⟩ := Grammar.yields_of_derives hd
  obtain ⟨ds₁, ds₂, v₁, v₂, rfl, rfl, hp₁, hrest⟩ := hy.split
  have hfollow := h.followsIn hleft.derives _ nt rest ds₂ v₂ rfl hrest
  have hlt : k < (g.productions nt).length := (List.getElem?_eq_some_iff.mp hp).1
  exact ht nt (Grammar.lt_length_of_production? hp) k hlt p hp _
    ((h.begins hp₁).ahead_mem hfollow)

end SymbolSets

end TopDown
