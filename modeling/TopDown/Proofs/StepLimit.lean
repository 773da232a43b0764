-- A run that ends keeps within the step limit. Under one lookahead a non-terminal is expanded in
-- the same way every time, so in a run that ends it never comes up inside its own expansion:
-- the expansions of what stands inside it are fewer. Ranking the non-terminals by that number
-- bounds what one symbol of the stack can cost, and one pass over the sentence bounds the run.
import Mathlib.Data.Finset.Card
import Mathlib.Data.Finset.Range
import TopDown.Proofs.SententialForm

namespace TopDown.Parser

variable {p : Parser} {x : Symbol}

/-! ## Expansions under one lookahead -/

/-- The topmost symbol is not expanded under the lookahead `x`. -/
def Stuck (p : Parser) (x : Symbol) (form : List Symbol) : Prop :=
  ∀ nt, form.head? = some (.nonTerminal nt) → p.choice? nt x = none

/-- Under the lookahead `x`, exactly `n` expansions lead from `form` to `rest`, which is stuck. -/
inductive Settles (p : Parser) (x : Symbol) : List Symbol → Nat → List Symbol → Prop
  | stop {form : List Symbol} : Stuck p x form → Settles p x form 0 form
  | expand {nt k n : Nat} {form rest : List Symbol} :
      p.choice? nt x = some k → Settles p x (p.expansion nt k ++ form) n rest →
      Settles p x (.nonTerminal nt :: form) (n + 1) rest

theorem Settles.unique {form rest rest' : List Symbol} {n n' : Nat}
    (h : p.Settles x form n rest) (h' : p.Settles x form n' rest') : n = n' ∧ rest = rest' := by
  induction h generalizing n' with
  | stop hstuck =>
    cases h' with
    | stop => exact ⟨rfl, rfl⟩
    | expand hk _ =>
      rw [hstuck _ rfl] at hk
      cases hk
  | expand hk _ ih =>
    cases h' with
    | stop hstuck =>
      rw [hstuck _ rfl] at hk
      cases hk
    | expand hk' h' =>
      rw [hk] at hk'
      cases hk'
      obtain ⟨rfl, rfl⟩ := ih h'
      exact ⟨rfl, rfl⟩

/-- The upper part of a stack settles first, and if it is used up, the lower part after it. -/
theorem Settles.split {xs ys rest : List Symbol} {n : Nat} (h : p.Settles x (xs ++ ys) n rest) :
    ∃ m mid, p.Settles x xs m mid ∧
      ((mid = [] ∧ ∃ l, p.Settles x ys l rest ∧ n = m + l) ∨ (n = m ∧ rest = mid ++ ys)) := by
  generalize hz : xs ++ ys = zs at h
  induction h generalizing xs with
  | stop hstuck =>
    subst hz
    rcases xs with _ | ⟨y, xs⟩
    · exact ⟨0, [], .stop (by simp [Stuck]), Or.inl ⟨rfl, 0, .stop hstuck, rfl⟩⟩
    · exact ⟨0, y :: xs, .stop hstuck, Or.inr ⟨rfl, rfl⟩⟩
  | @expand nt k n form rest hk h ih =>
    rcases xs with _ | ⟨y, xs⟩
    · rw [List.nil_append] at hz
      subst hz
      exact ⟨0, [], .stop (by simp [Stuck]), Or.inl ⟨rfl, n + 1, .expand hk h, by omega⟩⟩
    · obtain ⟨rfl, rfl⟩ := List.cons.inj hz
      obtain ⟨m, mid, hm, hrest⟩ := ih (List.append_assoc _ xs ys)
      refine ⟨m + 1, mid, .expand hk hm, ?_⟩
      rcases hrest with ⟨hmid, l, hl, rfl⟩ | ⟨rfl, hrest⟩
      · exact Or.inl ⟨hmid, l, hl, by omega⟩
      · exact Or.inr ⟨rfl, hrest⟩

/-- A bound on what one symbol costs and leaves is a bound for a whole stack. -/
theorem Settles.le_of_symbols {limit cost left : Nat}
    (hsymbol : ∀ y n rest, p.Settles x [y] n rest → n ≤ limit →
      n ≤ cost ∧ rest.length ≤ left + 1)
    {form rest : List Symbol} {n : Nat} (h : p.Settles x form n rest) (hn : n ≤ limit) :
    n ≤ form.length * cost ∧ rest.length ≤ form.length + left := by
  induction form generalizing n with
  | nil =>
    cases h with
    | stop => simp
  | cons y form ih =>
    rw [← List.singleton_append] at h
    obtain ⟨m, mid, hm, hrest⟩ := h.split
    rw [List.length_cons, Nat.succ_mul]
    rcases hrest with ⟨_, l, hl, rfl⟩ | ⟨rfl, rfl⟩
    · have hy := hsymbol y m mid hm (by omega)
      have hform := ih hl (by omega)
      omega
    · have hy := hsymbol y n mid hm hn
      rw [List.length_append]
      omega

/-! ## What one symbol costs -/

theorem le_foldl_max {xs : List Nat} {a n : Nat} (h : n ≤ a ∨ n ∈ xs) : n ≤ xs.foldl max a := by
  induction xs generalizing a with
  | nil => simpa using h
  | cons m xs ih =>
    refine ih ?_
    rcases h with h | h
    · exact Or.inl (by omega)
    · rcases List.mem_cons.mp h with rfl | h
      · exact Or.inl (by omega)
      · exact Or.inr h

theorem length_expansion_le {nt k : Nat} (h : p.choice? nt x = some k) :
    (p.expansion nt k).length ≤ longestRhs p.grammar := by
  obtain ⟨q, hq, hexp⟩ := exists_of_choice? h
  have hmem : q ∈ p.grammar.allProductions :=
    Grammar.mem_allProductions_iff.mpr ⟨nt, Grammar.mem_productions_of_production? hq⟩
  calc (p.expansion nt k).length ≤ q.rhs.length := by
        rw [hexp]
        exact List.length_filter_le _ _
    _ ≤ longestRhs p.grammar :=
        le_foldl_max (Or.inr (List.mem_map.mpr ⟨q, hmem, rfl⟩))

/-- The non-terminals that are expanded, and settle in fewer than `n` expansions. -/
noncomputable def cheaper (p : Parser) (x : Symbol) (n : Nat) : Finset Nat :=
  open Classical in (Finset.range p.grammar.rules.length).filter fun nt =>
    ∃ m rest, p.Settles x [.nonTerminal nt] m rest ∧ 0 < m ∧ m < n

theorem mem_cheaper {nt n : Nat} :
    nt ∈ p.cheaper x n ↔ nt < p.grammar.rules.length ∧
      ∃ m rest, p.Settles x [.nonTerminal nt] m rest ∧ 0 < m ∧ m < n := by
  simp [cheaper]

theorem lt_length_of_choice? {nt k : Nat} (h : p.choice? nt x = some k) :
    nt < p.grammar.rules.length := by
  obtain ⟨q, hq, _⟩ := exists_of_choice? h
  exact Grammar.lt_length_of_production? hq

/-- A non-terminal is not cheaper than itself. -/
theorem Settles.not_mem_cheaper {nt n : Nat} {rest : List Symbol}
    (h : p.Settles x [.nonTerminal nt] n rest) : nt ∉ p.cheaper x n := by
  intro hmem
  obtain ⟨_, m, rest', hm, _, hlt⟩ := mem_cheaper.mp hmem
  have := (h.unique hm).1
  omega

/-- A symbol that is expanded. -/
theorem Settles.exists_nonTerminal {y : Symbol} {n : Nat} {rest : List Symbol}
    (h : p.Settles x [y] n rest) (hn : 0 < n) :
    ∃ nt, y = .nonTerminal nt ∧ nt < p.grammar.rules.length := by
  cases h with
  | stop => omega
  | expand hk _ => exact ⟨_, rfl, lt_length_of_choice? hk⟩

theorem Settles.rest_eq {form rest : List Symbol} (h : p.Settles x form 0 rest) : rest = form := by
  cases h with
  | stop => rfl

theorem cheaper_ssubset {y : Symbol} {m n : Nat} {rest : List Symbol}
    (h : p.Settles x [y] m rest) (hm : 0 < m) (hlt : m < n) :
    p.cheaper x m ⊂ p.cheaper x n := by
  obtain ⟨nt, rfl, hnt⟩ := h.exists_nonTerminal hm
  refine Finset.ssubset_iff_subset_ne.mpr ⟨fun a ha => ?_, fun heq => ?_⟩
  · obtain ⟨hlen, l, rest', hl, hpos, hllt⟩ := mem_cheaper.mp ha
    exact mem_cheaper.mpr ⟨hlen, l, rest', hl, hpos, by omega⟩
  · apply h.not_mem_cheaper
    rw [heq]
    exact mem_cheaper.mpr ⟨hnt, m, rest, h, hm, hlt⟩

theorem symbolCost_pos (m n : Nat) : 0 < symbolCost m n := by
  induction n with
  | zero => exact Nat.one_pos
  | succ n ih => exact Nat.mul_pos (Nat.succ_pos m) ih

theorem symbolCost_le_succ (m n : Nat) : symbolCost m n ≤ symbolCost m (n + 1) :=
  Nat.le_mul_of_pos_left _ (Nat.succ_pos m)

/-- An expansion, and then what its symbols cost. -/
theorem succ_le_symbolCost {m j n : Nat} (h : n ≤ m * symbolCost m j) :
    n + 1 ≤ symbolCost m (j + 1) := by
  have hpos := symbolCost_pos m j
  calc n + 1 ≤ m * symbolCost m j + symbolCost m j := by omega
    _ = symbolCost m (j + 1) := by rw [symbolCost, Nat.succ_mul]

/-- A symbol with fewer than `j` cheaper ones. The induction is on `j`: what stands in the
expansion of a symbol is cheaper than the symbol. -/
theorem Settles.le_of_card {j : Nat} {y : Symbol} {n : Nat} {rest : List Symbol}
    (h : p.Settles x [y] n rest) (hj : (p.cheaper x n).card < j) :
    n ≤ symbolCost (longestRhs p.grammar) j ∧ rest.length ≤ longestRhs p.grammar * j + 1 := by
  induction j generalizing y n rest with
  | zero => omega
  | succ j ih =>
    cases h with
    | stop => simp
    | @expand nt k n form rest hk h =>
      have hsymbol : ∀ z l rest', p.Settles x [z] l rest' → l ≤ n →
          l ≤ symbolCost (longestRhs p.grammar) j ∧
            rest'.length ≤ longestRhs p.grammar * j + 1 := by
        intro z l rest' hz hl
        rcases Nat.eq_zero_or_pos l with rfl | hpos
        · rw [hz.rest_eq]
          simp
        · have hcard := Finset.card_lt_card (cheaper_ssubset hz hpos (by omega : l < n + 1))
          exact ih hz (by omega)
      have hlen := length_expansion_le hk
      obtain ⟨hn, hrest⟩ := h.le_of_symbols hsymbol (Nat.le_refl n)
      rw [List.append_nil] at hn hrest
      refine ⟨succ_le_symbolCost (hn.trans (Nat.mul_le_mul_right _ hlen)), ?_⟩
      rw [Nat.mul_succ]
      omega

/-- What one symbol can cost, and by how many symbols it can make a stack longer. -/
theorem Settles.symbol_le {y : Symbol} {n : Nat} {rest : List Symbol}
    (h : p.Settles x [y] n rest) :
    n ≤ symbolCost (longestRhs p.grammar) p.grammar.rules.length ∧
      rest.length ≤ longestRhs p.grammar * p.grammar.rules.length + 1 := by
  rcases Nat.eq_zero_or_pos n with rfl | hpos
  · rw [h.rest_eq]
    simp
  · obtain ⟨nt, rfl, hnt⟩ := h.exists_nonTerminal hpos
    apply h.le_of_card
    have hsub : p.cheaper x n ⊂ Finset.range p.grammar.rules.length := by
      refine Finset.ssubset_iff_subset_ne.mpr ⟨fun a ha => ?_, fun heq => ?_⟩
      · exact Finset.mem_range.mpr (mem_cheaper.mp ha).1
      · apply h.not_mem_cheaper
        rw [heq]
        exact Finset.mem_range.mpr hnt
    simpa using Finset.card_lt_card hsub

/-! ## What a run costs -/

/-- A run with `v` ahead and `form` on the end mark ends in `steps` steps. -/
def EndsIn (p : Parser) (v : List Char) (form : List Symbol) (steps : Nat) : Prop :=
  ∃ fuel u n t rs, p.runFrom fuel (.midway u v form n) = some (t, rs) ∧ rs.length = steps

theorem stuck_of_onEndMark {form : List Symbol} (h : OnEndMark form) : Stuck p x form := by
  intro nt hnt
  rcases form with _ | ⟨y, form⟩
  · cases hnt
  · cases hnt
    cases h

theorem stuck_of_reject {u v : List Char} {form : List Symbol} {n : Nat} {reason : RejectReason}
    (h : p.action (.midway u v form n) = .reject reason) : Stuck p (ahead v) form := by
  intro nt hnt
  rcases form with _ | ⟨y, form⟩
  · cases hnt
  · cases hnt
    rw [action_nonTerminal] at h
    split at h
    · cases h
    · assumption

/-- Up to the next character that is consumed, a run only expands. It ends then, or goes on
behind that character. -/
theorem EndsIn.settles {v : List Char} {form : List Symbol} {steps : Nat}
    (h : p.EndsIn v form steps) :
    ∃ l rest, p.Settles (ahead v) form l rest ∧ (steps = l + 1 ∨
      ∃ c v' rest' steps', v = c :: v' ∧ rest = .terminal c :: rest' ∧
        p.EndsIn v' rest' steps' ∧ steps = l + 1 + steps') := by
  obtain ⟨fuel, u, n, t, rs, h, rfl⟩ := h
  induction fuel generalizing form n rs with
  | zero => simp [runFrom, isDone_midway] at h
  | succ fuel ih =>
    obtain ⟨a, next, hmove, hstep⟩ := p.moves u v form n
    rw [runFrom_succ isDone_midway hstep, Option.map_eq_some_iff] at h
    obtain ⟨⟨last, records⟩, hrun, heq⟩ := h
    cases heq
    rw [List.length_cons]
    cases hmove with
    | @consume c v form =>
      have hends : p.EndsIn v form records.length := ⟨fuel, _, _, _, records, hrun, rfl⟩
      exact ⟨0, _, .stop (by simp [Stuck]), Or.inr ⟨c, v, form, _, rfl, rfl, hends, by omega⟩⟩
    | expand hk =>
      obtain ⟨l, rest, hl, hrest⟩ := ih _ _ hrun
      refine ⟨l + 1, rest, .expand hk hl, ?_⟩
      rcases hrest with hlen | ⟨c, v', rest', steps', hv, hr, hends, hlen⟩
      · exact Or.inl (by omega)
      · exact Or.inr ⟨c, v', rest', steps', hv, hr, hends, by omega⟩
    | accept hmark =>
      rw [runFrom_done rfl] at hrun
      cases hrun
      exact ⟨0, form, .stop (stuck_of_onEndMark hmark), Or.inl rfl⟩
    | reject haction =>
      rw [runFrom_done rfl] at hrun
      cases hrun
      exact ⟨0, form, .stop (stuck_of_reject haction), Or.inl rfl⟩

/-- For each character and the end, a run pays at most for every symbol of the stack, which has
grown by a fixed number of symbols with each character before. -/
theorem EndsIn.le {v : List Char} {form : List Symbol} {steps : Nat}
    (h : p.EndsIn v form steps) {cost left : Nat} (hcost : 0 < cost)
    (hsymbol : ∀ x y n rest, p.Settles x [y] n rest → n ≤ cost ∧ rest.length ≤ left + 1) :
    steps ≤ (v.length + 1) * ((1 + form.length + v.length * left) * cost) := by
  induction v generalizing form steps with
  | nil =>
    obtain ⟨l, rest, hl, hrest⟩ := h.settles
    have hle := (hl.le_of_symbols (fun y n rest h _ => hsymbol _ y n rest h) (Nat.le_refl l)).1
    rcases hrest with rfl | ⟨c, v', rest', steps', hv, _⟩
    · simp only [List.length_nil, Nat.zero_mul, Nat.add_zero, Nat.zero_add, Nat.one_mul,
        Nat.add_mul]
      omega
    · cases hv
  | cons c v ih =>
    obtain ⟨l, rest, hl, hrest⟩ := h.settles
    obtain ⟨hle, hlen⟩ :=
      hl.le_of_symbols (fun y n rest h _ => hsymbol _ y n rest h) (Nat.le_refl l)
    have hl1 : l + 1 ≤ (1 + form.length + (v.length + 1) * left) * cost := by
      calc l + 1 ≤ form.length * cost + 1 * cost := by omega
        _ = (1 + form.length) * cost := by rw [← Nat.add_mul, Nat.add_comm]
        _ ≤ _ := Nat.mul_le_mul_right _ (Nat.le_add_right _ _)
    rw [List.length_cons, Nat.succ_mul (v.length + 1)]
    rcases hrest with rfl | ⟨_, _, rest', steps', hv, rfl, hends, rfl⟩
    · exact hl1.trans (Nat.le_add_left _ _)
    · cases hv
      rw [List.length_cons] at hlen
      have hsteps : steps' ≤ (v.length + 1) *
          ((1 + form.length + (v.length + 1) * left) * cost) := by
        refine (ih hends).trans (Nat.mul_le_mul_left _ (Nat.mul_le_mul_right _ ?_))
        rw [Nat.succ_mul]
        omega
      omega

/-- A run on a sentence that ends keeps within the limit. -/
theorem length_le_stepLimit {fuel : Nat} {w : String} {t : State} {rs : List Record}
    (h : p.runFrom fuel (p.start w) = some (t, rs)) :
    rs.length ≤ stepLimit p.grammar w.length := by
  rw [start_eq_midway] at h
  have hends : p.EndsIn w.toList [p.grammar.startSymbol] rs.length := ⟨fuel, _, _, t, rs, h, rfl⟩
  have hle := hends.le (symbolCost_pos _ _) (fun x y n rest h => h.symbol_le)
  refine hle.trans ?_
  simp only [String.length_toList, List.length_singleton, stepLimit]
  generalize longestRhs p.grammar = m
  generalize p.grammar.rules.length = n
  rw [Nat.mul_assoc (w.length + 2)]
  refine Nat.mul_le_mul (by omega) (Nat.mul_le_mul ?_ (symbolCost_le_succ m n))
  have hlen : w.length * (m * n) ≤ (w.length + 2) * (m * n) := Nat.mul_le_mul_right _ (by omega)
  rw [Nat.mul_assoc, Nat.mul_comm n m]
  omega

/-! ## Enough steps -/

theorem runFrom_of_length_le {fuel fuel' : Nat} {s t : State} {rs : List Record}
    (h : p.runFrom fuel s = some (t, rs)) (hle : rs.length ≤ fuel') :
    p.runFrom fuel' s = some (t, rs) := by
  induction fuel generalizing s rs fuel' with
  | zero =>
    cases hd : isDone s with
    | false => simp [runFrom, hd] at h
    | true =>
      rw [runFrom_done hd] at h ⊢
      exact h
  | succ fuel ih =>
    cases hd : isDone s with
    | true =>
      rw [runFrom_done hd] at h ⊢
      exact h
    | false =>
      obtain ⟨next, r, hs⟩ := exists_record (p := p) (isFinished_of_isDone_eq_false hd)
      rw [runFrom_succ hd hs, Option.map_eq_some_iff] at h
      obtain ⟨⟨last, records⟩, hrun, heq⟩ := h
      cases heq
      rw [List.length_cons] at hle
      obtain ⟨fuel', rfl⟩ : ∃ f, fuel' = f + 1 := ⟨fuel' - 1, by omega⟩
      rw [runFrom_succ hd hs, ih hrun (by omega)]
      rfl

/-- The limit cuts off no run that ends. -/
theorem run_eq_of_runFrom {fuel : Nat} {w : String} {t : State} {rs : List Record}
    (h : p.runFrom fuel (p.start w) = some (t, rs)) :
    p.run w = some ⟨t.status, t.steps, rs⟩ := by
  rw [run, runWithin, runFrom_of_length_le h (length_le_stepLimit h)]
  rfl

end TopDown.Parser
