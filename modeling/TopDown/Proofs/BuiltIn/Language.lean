-- The strings that the built-in parser accepts, letter by letter, and what a run of it costs: two
-- steps for each character and three more at most, also where it rejects.
import TopDown.Proofs.Completeness
import TopDown.Proofs.Potential
import TopDown.Proofs.Soundness

namespace TopDown

/-! ## Strings with the number of alternatives that derive them -/

namespace Grammar

variable {g : Grammar}

/-- The string has a leftmost derivation of `n` steps. -/
def Spells (g : Grammar) (xs : List Symbol) (n : Nat) (w : List Char) : Prop :=
  ∃ cs, g.Yields xs cs w ∧ cs.length = n

theorem spells_nil_iff {n : Nat} {w : List Char} : g.Spells [] n w ↔ n = 0 ∧ w = [] := by
  constructor
  · rintro ⟨cs, h, rfl⟩
    obtain ⟨rfl, rfl⟩ := yields_nil_iff.mp h
    exact ⟨rfl, rfl⟩
  · rintro ⟨rfl, rfl⟩
    exact ⟨[], .nil, rfl⟩

theorem spells_terminal_iff {c : Char} {xs : List Symbol} {n : Nat} {w : List Char} :
    g.Spells (.terminal c :: xs) n w ↔ ∃ v, w = c :: v ∧ g.Spells xs n v := by
  constructor
  · rintro ⟨cs, h, hn⟩
    obtain ⟨v, rfl, hv⟩ := yields_terminal_iff.mp h
    exact ⟨v, rfl, cs, hv, hn⟩
  · rintro ⟨v, rfl, cs, h, hn⟩
    exact ⟨cs, .terminal h, hn⟩

theorem spells_nonTerminal_iff {nt n : Nat} {w : List Char} :
    g.Spells [.nonTerminal nt] n w ↔
      ∃ p ∈ g.productions nt, ∃ m, n = m + 1 ∧ g.Spells p.visible m w := by
  constructor
  · rintro ⟨cs, h, rfl⟩
    obtain ⟨k, p, ds, rfl, hp, hds⟩ := yields_nonTerminal_iff.mp h
    rw [List.append_nil] at hds
    exact ⟨p, mem_productions_of_production? hp, ds.length, rfl, ds, hds, rfl⟩
  · rintro ⟨p, hp, m, rfl, cs, h, rfl⟩
    obtain ⟨k, hk⟩ := List.mem_iff_getElem?.mp hp
    rw [← List.append_nil p.visible] at h
    exact ⟨(nt, k) :: cs, .nonTerminal hk h, rfl⟩

theorem spells_append_iff {xs ys : List Symbol} {n : Nat} {w : List Char} :
    g.Spells (xs ++ ys) n w ↔
      ∃ m l u v, n = m + l ∧ w = u ++ v ∧ g.Spells xs m u ∧ g.Spells ys l v := by
  constructor
  · rintro ⟨cs, h, rfl⟩
    obtain ⟨cs₁, cs₂, u, v, rfl, rfl, h₁, h₂⟩ := h.split
    exact ⟨_, _, u, v, List.length_append, rfl, ⟨cs₁, h₁, rfl⟩, ⟨cs₂, h₂, rfl⟩⟩
  · rintro ⟨_, _, u, v, rfl, rfl, ⟨cs₁, h₁, rfl⟩, ⟨cs₂, h₂, rfl⟩⟩
    exact ⟨cs₁ ++ cs₂, h₁.append h₂, List.length_append⟩

/-- A letter before and after. -/
theorem spells_between_iff {c d : Char} {x : Symbol} {n : Nat} {w : List Char} :
    g.Spells [.terminal c, x, .terminal d] n w ↔
      ∃ v, w = c :: v ++ [d] ∧ g.Spells [x] n v := by
  have hsplit : [Symbol.terminal c, x, .terminal d] = .terminal c :: ([x] ++ [.terminal d]) := rfl
  simp only [hsplit, spells_terminal_iff, spells_append_iff, spells_nil_iff]
  constructor
  · rintro ⟨_, rfl, m, _, v, _, rfl, rfl, hv, _, rfl, rfl, rfl⟩
    exact ⟨v, rfl, hv⟩
  · rintro ⟨v, rfl, hv⟩
    exact ⟨_, rfl, n, 0, v, _, rfl, rfl, hv, [], rfl, rfl, rfl⟩

/-- A non-terminal that puts a letter before itself until it takes its other alternative. -/
theorem spells_repeating_iff {nt : Nat} {c : Char} {q : Production}
    (hg : g.productions nt = [⟨nt, [.terminal c, .nonTerminal nt]⟩, q]) {n : Nat}
    {w : List Char} :
    g.Spells [.nonTerminal nt] n w ↔
      ∃ i m v, n = i + 1 + m ∧ w = List.replicate i c ++ v ∧ g.Spells q.visible m v := by
  have hmore : ∀ {n w}, g.Spells [.nonTerminal nt] n w ↔
      (∃ m v, n = m + 1 ∧ w = c :: v ∧ g.Spells [.nonTerminal nt] m v) ∨
        ∃ m, n = m + 1 ∧ g.Spells q.visible m w := by
    intro n w
    have hvisible : (⟨nt, [.terminal c, .nonTerminal nt]⟩ : Production).visible =
        [.terminal c, .nonTerminal nt] := rfl
    rw [spells_nonTerminal_iff, hg]
    simp only [List.mem_cons, List.not_mem_nil, or_false, exists_eq_or_imp, exists_eq_left]
    simp only [hvisible, spells_terminal_iff]
    grind
  constructor
  · intro h
    induction n generalizing w with
    | zero =>
      rcases hmore.mp h with ⟨m, v, hm, _⟩ | ⟨m, hm, _⟩
      · omega
      · omega
    | succ n ih =>
      rcases hmore.mp h with ⟨m, v, hm, rfl, hv⟩ | ⟨m, hm, hw⟩
      · cases hm
        obtain ⟨i, l, u, rfl, rfl, hu⟩ := ih hv
        exact ⟨i + 1, l, u, by omega, rfl, hu⟩
      · exact ⟨0, m, w, by omega, rfl, hw⟩
  · rintro ⟨i, m, v, rfl, rfl, hv⟩
    induction i with
    | zero => exact hmore.mpr (Or.inr ⟨m, by omega, hv⟩)
    | succ i ih => exact hmore.mpr (Or.inl ⟨_, _, by omega, rfl, ih⟩)

end Grammar

namespace BuiltIn

/-! ## The strings of each non-terminal -/

theorem productions_S : grammar.productions 0 =
    [⟨0, [.terminal 'a', .nonTerminal 1, .terminal 'a']⟩,
      ⟨0, [.terminal 'b', .nonTerminal 2, .terminal 'b']⟩,
      ⟨0, [.terminal 'c', .nonTerminal 3, .terminal 'c']⟩] := rfl

theorem productions_A : grammar.productions 1 =
    [⟨1, [.terminal 'a', .nonTerminal 1]⟩,
      ⟨1, [.terminal 'c', .nonTerminal 4, .nonTerminal 2]⟩] := rfl

theorem productions_B : grammar.productions 2 =
    [⟨2, [.terminal 'b', .nonTerminal 2]⟩,
      ⟨2, [.terminal 'c', .nonTerminal 3, .nonTerminal 4]⟩] := rfl

theorem productions_C : grammar.productions 3 = [⟨3, [.nonTerminal 4, .terminal 'c']⟩] := rfl

theorem productions_D : grammar.productions 4 =
    [⟨4, [.terminal 'd', .nonTerminal 4]⟩, ⟨4, [.empty]⟩] := rfl

/-- `d ^ l`. -/
theorem spells_D_iff {n : Nat} {w : List Char} :
    grammar.Spells [.nonTerminal 4] n w ↔ ∃ l, n = l + 1 ∧ w = List.replicate l 'd' := by
  rw [Grammar.spells_repeating_iff productions_D]
  have hrest : (⟨4, [.empty]⟩ : Production).visible = [] := rfl
  simp only [hrest, Grammar.spells_nil_iff]
  constructor
  · rintro ⟨l, m, v, rfl, rfl, rfl, rfl⟩
    exact ⟨l, rfl, List.append_nil _⟩
  · rintro ⟨l, rfl, rfl⟩
    exact ⟨l, 0, [], rfl, (List.append_nil _).symm, rfl, rfl⟩

/-- `d ^ k c`. -/
theorem spells_C_iff {n : Nat} {w : List Char} :
    grammar.Spells [.nonTerminal 3] n w ↔
      ∃ k, n = k + 2 ∧ w = List.replicate k 'd' ++ ['c'] := by
  have hvisible : (⟨3, [.nonTerminal 4, .terminal 'c']⟩ : Production).visible =
      [.nonTerminal 4] ++ [.terminal 'c'] := rfl
  rw [Grammar.spells_nonTerminal_iff, productions_C]
  simp only [List.mem_singleton, exists_eq_left]
  simp only [hvisible, Grammar.spells_append_iff, spells_D_iff, Grammar.spells_terminal_iff,
    Grammar.spells_nil_iff]
  constructor
  · rintro ⟨_, rfl, _, _, _, _, rfl, rfl, ⟨k, rfl, rfl⟩, _, rfl, rfl, rfl⟩
    exact ⟨k, rfl, rfl⟩
  · rintro ⟨k, rfl, rfl⟩
    exact ⟨k + 1, rfl, k + 1, 0, _, _, rfl, rfl, ⟨k, rfl, rfl⟩, [], rfl, rfl, rfl⟩

/-- `b ^ j c d ^ k c d ^ l`. -/
theorem spells_B_iff {n : Nat} {w : List Char} :
    grammar.Spells [.nonTerminal 2] n w ↔
      ∃ j k l, n = j + k + l + 4 ∧ w = List.replicate j 'b' ++
        'c' :: List.replicate k 'd' ++ 'c' :: List.replicate l 'd' := by
  rw [Grammar.spells_repeating_iff productions_B]
  have hrest : (⟨2, [.terminal 'c', .nonTerminal 3, .nonTerminal 4]⟩ : Production).visible =
      .terminal 'c' :: ([.nonTerminal 3] ++ [.nonTerminal 4]) := rfl
  simp only [hrest, Grammar.spells_terminal_iff, Grammar.spells_append_iff, spells_C_iff,
    spells_D_iff]
  constructor
  · rintro ⟨j, _, _, rfl, rfl, _, rfl, _, _, _, _, rfl, rfl, ⟨k, rfl, rfl⟩, l, rfl, rfl⟩
    exact ⟨j, k, l, by omega, by simp⟩
  · rintro ⟨j, k, l, rfl, rfl⟩
    exact ⟨j, _, _, by omega, by simp, _, rfl, k + 2, l + 1, _, _, rfl, rfl, ⟨k, rfl, rfl⟩,
      l, rfl, rfl⟩

/-- `a ^ i c d ^ m b ^ j c d ^ k c d ^ l`. -/
theorem spells_A_iff {n : Nat} {w : List Char} :
    grammar.Spells [.nonTerminal 1] n w ↔
      ∃ i j k l m, n = i + j + k + l + m + 6 ∧ w = List.replicate i 'a' ++
        'c' :: List.replicate m 'd' ++ List.replicate j 'b' ++
        'c' :: List.replicate k 'd' ++ 'c' :: List.replicate l 'd' := by
  rw [Grammar.spells_repeating_iff productions_A]
  have hrest : (⟨1, [.terminal 'c', .nonTerminal 4, .nonTerminal 2]⟩ : Production).visible =
      .terminal 'c' :: ([.nonTerminal 4] ++ [.nonTerminal 2]) := rfl
  simp only [hrest, Grammar.spells_terminal_iff, Grammar.spells_append_iff, spells_B_iff,
    spells_D_iff]
  constructor
  · rintro ⟨i, _, _, rfl, rfl, _, rfl, _, _, _, _, rfl, rfl, ⟨m, rfl, rfl⟩, j, k, l, rfl, rfl⟩
    exact ⟨i, j, k, l, m, by omega, by simp⟩
  · rintro ⟨i, j, k, l, m, rfl, rfl⟩
    exact ⟨i, _, _, by omega, by simp, _, rfl, m + 1, j + k + l + 4, _, _, rfl, rfl,
      ⟨m, rfl, rfl⟩, j, k, l, rfl, rfl⟩

/-- `a ^ (i + 1) c d ^ m b ^ j c d ^ k c d ^ l a`. -/
def aWord (i j k l m : Nat) : List Char :=
  List.replicate (i + 1) 'a' ++ 'c' :: List.replicate m 'd' ++ List.replicate j 'b' ++
    'c' :: List.replicate k 'd' ++ 'c' :: List.replicate l 'd' ++ ['a']

/-- `b ^ (j + 1) c d ^ k c d ^ l b`. -/
def bWord (j k l : Nat) : List Char :=
  List.replicate (j + 1) 'b' ++ 'c' :: List.replicate k 'd' ++ 'c' :: List.replicate l 'd' ++
    ['b']

/-- `c d ^ k c c`. -/
def cWord (k : Nat) : List Char := 'c' :: List.replicate k 'd' ++ ['c', 'c']

theorem aWord_eq (i j k l m : Nat) : aWord i j k l m = 'a' :: (List.replicate i 'a' ++
    'c' :: List.replicate m 'd' ++ List.replicate j 'b' ++ 'c' :: List.replicate k 'd' ++
      'c' :: List.replicate l 'd') ++ ['a'] := by
  simp [aWord, List.replicate_succ]

theorem bWord_eq (j k l : Nat) : bWord j k l = 'b' :: (List.replicate j 'b' ++
    'c' :: List.replicate k 'd' ++ 'c' :: List.replicate l 'd') ++ ['b'] := by
  simp [bWord, List.replicate_succ]

theorem cWord_eq (k : Nat) : cWord k = 'c' :: (List.replicate k 'd' ++ ['c']) ++ ['c'] := by
  simp [cWord]

theorem length_aWord (i j k l m : Nat) : (aWord i j k l m).length = i + j + k + l + m + 5 := by
  simp [aWord]
  omega

theorem length_bWord (j k l : Nat) : (bWord j k l).length = j + k + l + 4 := by
  simp [bWord]
  omega

theorem length_cWord (k : Nat) : (cWord k).length = k + 3 := by
  simp [cWord]

/-- The strings of the start symbol. The outermost letter tells how many alternatives there are
beside the characters. -/
theorem spells_S_iff {n : Nat} {w : List Char} :
    grammar.Spells [grammar.startSymbol] n w ↔
      (∃ i j k l m, w = aWord i j k l m ∧ n = w.length + 2) ∨
      (∃ j k l, w = bWord j k l ∧ n = w.length + 1) ∨ ∃ k, w = cWord k ∧ n = w.length := by
  have hvisible : ∀ c nt, (⟨0, [.terminal c, .nonTerminal nt, .terminal c]⟩ : Production).visible =
      [.terminal c, .nonTerminal nt, .terminal c] := fun _ _ => rfl
  have hstart : grammar.startSymbol = .nonTerminal 0 := rfl
  rw [hstart, Grammar.spells_nonTerminal_iff, productions_S]
  simp only [List.mem_cons, List.not_mem_nil, or_false, exists_eq_or_imp, exists_eq_left]
  simp only [hvisible, Grammar.spells_between_iff, spells_A_iff, spells_B_iff, spells_C_iff]
  refine or_congr ?_ (or_congr ?_ ?_)
  · constructor
    · rintro ⟨_, rfl, _, rfl, i, j, k, l, m, rfl, rfl⟩
      refine ⟨i, j, k, l, m, (aWord_eq i j k l m).symm, ?_⟩
      rw [← aWord_eq, length_aWord]
    · rintro ⟨i, j, k, l, m, rfl, rfl⟩
      rw [length_aWord]
      exact ⟨_, rfl, _, aWord_eq i j k l m, i, j, k, l, m, rfl, rfl⟩
  · constructor
    · rintro ⟨_, rfl, _, rfl, j, k, l, rfl, rfl⟩
      refine ⟨j, k, l, (bWord_eq j k l).symm, ?_⟩
      rw [← bWord_eq, length_bWord]
    · rintro ⟨j, k, l, rfl, rfl⟩
      rw [length_bWord]
      exact ⟨_, rfl, _, bWord_eq j k l, j, k, l, rfl, rfl⟩
  · constructor
    · rintro ⟨_, rfl, _, rfl, k, rfl, rfl⟩
      refine ⟨k, (cWord_eq k).symm, ?_⟩
      rw [← cWord_eq, length_cWord]
    · rintro ⟨k, rfl, rfl⟩
      rw [length_cWord]
      exact ⟨_, rfl, _, cWord_eq k, k, rfl, rfl⟩

/-! ## What a run costs -/

/-- What a non-terminal may cost, before a form that may cost `n`. The `c` at the end of `C` pays
for one step of that form. -/
def raised (n : Nat) : Nat → Nat
  | 0 => n + 3
  | 1 => n + 3
  | 2 => n + 2
  | 3 => n - 1 + 2
  | 4 => n + 1
  | _ => n

/-- How many steps a form may cost, over two for each character. A terminal comes with its
character and leaves one of the two. -/
def surcharge : List Symbol → Nat
  | [] => 0
  | .terminal _ :: form => surcharge form - 1
  | .nonTerminal nt :: form => raised (surcharge form) nt
  | .empty :: form | .endMark :: form => surcharge form

/-- Every alternative lowers it. -/
theorem surcharge_visible_lt {nt k : Nat} {q : Production} {form : List Symbol}
    (hq : grammar.production? nt k = some q) :
    surcharge (q.visible ++ form) < surcharge (.nonTerminal nt :: form) := by
  have hlt : nt < 5 := Grammar.lt_length_of_production? hq
  have hall : ∀ q ∈ grammar.productions nt,
      surcharge (q.visible ++ form) < surcharge (.nonTerminal nt :: form) := by
    obtain rfl | rfl | rfl | rfl | rfl : nt = 0 ∨ nt = 1 ∨ nt = 2 ∨ nt = 3 ∨ nt = 4 := by omega
    all_goals
      simp only [productions_S, productions_A, productions_B, productions_C, productions_D,
        List.mem_cons, List.not_mem_nil, or_false, forall_eq_or_imp, forall_eq,
        Production.visible, List.filter_cons, List.filter_nil, Symbol.isEmpty, Bool.not_false,
        Bool.not_true, Bool.false_eq_true, if_true, if_false, List.cons_append, List.nil_append,
        surcharge, raised]
      omega
  exact hall q (Grammar.mem_productions_of_production? hq)

/-- At the end of the input the table has no entry. -/
theorem choice?_endMark (nt : Nat) :
    (Parser.ofConfiguration loaded).choice? nt .endMark = none := by
  have hentries : ∀ e ∈ parsingTable.entries, e.1.2 ≠ .endMark := by decide
  have hlookup : parsingTable.lookup nt .endMark = none := by
    cases h : parsingTable.lookup nt .endMark with
    | none => rfl
    | some k => exact absurd rfl (hentries _ (Keyed.mem_of_get? h))
  simp only [Parser.choice?, Parser.ofConfiguration, loaded, hlookup]
  rfl

/-- Two steps for each character that is ahead, and the surcharge. At the end of the input one step
is left. -/
def potential : Parser.Potential (Parser.ofConfiguration loaded) where
  value
    | [], _ => 1
    | c :: v, form => 2 * (c :: v).length + surcharge form
  pos v form := by
    cases v with
    | nil => exact Nat.one_pos
    | cons c v =>
      simp only [List.length_cons]
      omega
  consume c v form := by
    cases v with
    | nil =>
      simp only [List.length_cons, List.length_nil]
      omega
    | cons d v =>
      simp only [List.length_cons, surcharge]
      omega
  expand v nt k form hk := by
    obtain ⟨q, hq, hexp⟩ := Parser.exists_of_choice? hk
    cases v with
    | nil =>
      have hnone := (choice?_endMark nt).symm.trans hk
      cases hnone
    | cons c v =>
      rw [hexp]
      exact Nat.add_lt_add_left (surcharge_visible_lt hq) _

theorem potential_le (v : List Char) :
    potential.value v [grammar.startSymbol] ≤ 2 * v.length + 3 := by
  cases v with
  | nil =>
    simp only [potential, List.length_nil]
    omega
  | cons c v => exact Nat.le_refl _

/-! ## The language -/

/-- A run on a string that is derived in `n` steps. -/
theorem accepts_of_spells {w : String} {n : Nat} {r : Report}
    (hrun : (Parser.ofConfiguration loaded).run w = some r)
    (h : grammar.Spells [grammar.startSymbol] n w.toList) :
    r.status = .accepted ∧ r.steps = w.toList.length + n + 1 := by
  obtain ⟨cs, hcs, rfl⟩ := h
  obtain ⟨r', hrun', haccepted, _, hsteps⟩ :=
    Parser.run_of_leftmost (p := Parser.ofConfiguration loaded) predictive hcs.leftmost
  rw [hrun] at hrun'
  cases hrun'
  rw [String.length_toList]
  exact ⟨haccepted, hsteps⟩

/-- What a run accepts is derived in some number of steps. -/
theorem exists_spells_of_accepted {w : String} {r : Report}
    (hrun : (Parser.ofConfiguration loaded).run w = some r) (h : r.status = .accepted) :
    ∃ n, grammar.Spells [grammar.startSymbol] n w.toList := by
  have hleft := (Parser.explains_of_run noEndMark hrun h).derivation
  exact ⟨_, _, Grammar.leftmost_symbols_iff.mp hleft, rfl⟩

/-- The parser of the built-in grammar comes to a verdict on every string, and accepts three kinds
of strings, each with its own number of steps beside two for each character. -/
theorem the_built_in_language_and_its_cost :
    ∃ c, configuration = .ok c ∧ ∀ w : String, ∃ r,
      (Parser.ofConfiguration c).run w = some r ∧ r.status.isFinished = true ∧
        r.steps ≤ 2 * w.length + 3 ∧
        (r.status = .accepted ↔ (∃ i j k l m, w.toList = aWord i j k l m) ∨
          (∃ j k l, w.toList = bWord j k l) ∨ ∃ k, w.toList = cWord k) ∧
        (∀ i j k l m, w.toList = aWord i j k l m → r.steps = 2 * w.length + 3) ∧
        (∀ j k l, w.toList = bWord j k l → r.steps = 2 * w.length + 2) ∧
        ∀ k, w.toList = cWord k → r.steps = 2 * w.length + 1 := by
  refine ⟨loaded, configuration_eq, ?_⟩
  intro w
  obtain ⟨r, hrun, hfinished, hle⟩ := potential.exists_run w
  have ha : ∀ i j k l m, w.toList = aWord i j k l m →
      r.status = .accepted ∧ r.steps = w.toList.length + (w.toList.length + 2) + 1 := by
    intro i j k l m hw
    apply accepts_of_spells hrun
    exact spells_S_iff.mpr (Or.inl ⟨i, j, k, l, m, hw, rfl⟩)
  have hb : ∀ j k l, w.toList = bWord j k l →
      r.status = .accepted ∧ r.steps = w.toList.length + (w.toList.length + 1) + 1 := by
    intro j k l hw
    apply accepts_of_spells hrun
    exact spells_S_iff.mpr (Or.inr (Or.inl ⟨j, k, l, hw, rfl⟩))
  have hc : ∀ k, w.toList = cWord k →
      r.status = .accepted ∧ r.steps = w.toList.length + w.toList.length + 1 := by
    intro k hw
    apply accepts_of_spells hrun
    exact spells_S_iff.mpr (Or.inr (Or.inr ⟨k, hw, rfl⟩))
  simp only [← String.length_toList]
  refine ⟨r, hrun, hfinished, hle.trans (potential_le _), ⟨?_, ?_⟩, ?_, ?_, ?_⟩
  · intro haccepted
    obtain ⟨n, hn⟩ := exists_spells_of_accepted hrun haccepted
    rcases spells_S_iff.mp hn with ⟨i, j, k, l, m, hw, _⟩ | ⟨j, k, l, hw, _⟩ | ⟨k, hw, _⟩
    · exact Or.inl ⟨i, j, k, l, m, hw⟩
    · exact Or.inr (Or.inl ⟨j, k, l, hw⟩)
    · exact Or.inr (Or.inr ⟨k, hw⟩)
  · rintro (⟨i, j, k, l, m, hw⟩ | ⟨j, k, l, hw⟩ | ⟨k, hw⟩)
    · exact (ha i j k l m hw).1
    · exact (hb j k l hw).1
    · exact (hc k hw).1
  · intro i j k l m hw
    rw [(ha i j k l m hw).2]
    omega
  · intro j k l hw
    rw [(hb j k l hw).2]
    omega
  · intro k hw
    rw [(hc k hw).2]
    omega

end BuiltIn

end TopDown
