-- What the generator puts out. Whatever is chosen, its productions lead from the symbol, from the
-- left, to a form without non-terminals, and the characters of that form are the output.
import TopDown.Generator.Derive
import TopDown.Proofs.Derivation

namespace TopDown

/-- The character of a terminal. -/
def Symbol.char? : Symbol → Option Char
  | terminal c => some c
  | nonTerminal _ | empty | endMark => none

/-- The characters of a form. -/
def characters (xs : List Symbol) : List Char := xs.filterMap Symbol.char?

/-- A form of terminals is told by its characters. -/
theorem eq_symbols_characters {xs : List Symbol} (h : ∀ x ∈ xs, x.isTerminal = true) :
    xs = symbols (characters xs) := by
  induction xs with
  | nil => rfl
  | cons x xs ih =>
    have hx := h x List.mem_cons_self
    have hrest := ih fun y hy => h y (List.mem_cons_of_mem x hy)
    cases x with
    | terminal c => exact congrArg (Symbol.terminal c :: ·) hrest
    | nonTerminal | empty | endMark => cases hx

namespace Derivation

variable {g : Grammar}

/-- The productions lead from `xs`, from the left, to a form without non-terminals that has the
output for its characters. -/
def IsFrom (d : Derivation) (g : Grammar) (xs : List Symbol) : Prop :=
  ∃ cs y, g.Leftmost (xs.filter fun x => !x.isEmpty) cs y ∧
    (∀ x ∈ y, x.isNonTerminal = false) ∧ d.output = characters y ∧
    d.productions.map some = cs.map fun c => g.production? c.1 c.2

theorem isFrom_nil : empty.IsFrom g [] := ⟨[], [], .refl _, by simp, rfl, rfl⟩

/-- A terminal puts out its character, and the markers put out nothing. -/
theorem isFrom_leaf {x : Symbol} (hx : x.isNonTerminal = false) :
    (⟨x.char?.toList, []⟩ : Derivation).IsFrom g [x] := by
  cases x with
  | nonTerminal => cases hx
  | empty => exact isFrom_nil
  | terminal | endMark => exact ⟨[], [_], .refl _, by simp [Symbol.isNonTerminal], rfl, rfl⟩

theorem IsFrom.append {d e : Derivation} {xs ys : List Symbol} (hd : d.IsFrom g xs)
    (he : e.IsFrom g ys) : (d.append e).IsFrom g (xs ++ ys) := by
  obtain ⟨cs, y, hcs, hy, hout, hprod⟩ := hd
  obtain ⟨ds, z, hds, hz, hout', hprod'⟩ := he
  refine ⟨cs ++ ds, y ++ z, ?_, ?_, ?_, ?_⟩
  · have hleft := hcs.append [] (ys.filter fun x => !x.isEmpty) (by simp)
    have hright := hds.append y [] hy
    rw [List.append_nil, List.append_nil] at hright
    rw [List.filter_append]
    exact hleft.trans hright
  · intro x hx
    rcases List.mem_append.mp hx with hx | hx
    · exact hy x hx
    · exact hz x hx
  · simp only [Derivation.append, characters, List.filterMap_append, hout, hout']
  · simp only [Derivation.append, List.map_append, hprod, hprod']

/-- An alternative goes before what is derived from its right-hand side. -/
theorem IsFrom.apply {d : Derivation} {nt : Nat} {p : Production} (hp : p ∈ g.productions nt)
    (hd : d.IsFrom g p.rhs) :
    (⟨d.output, p :: d.productions⟩ : Derivation).IsFrom g [.nonTerminal nt] := by
  obtain ⟨k, hk⟩ := List.mem_iff_getElem?.mp hp
  obtain ⟨cs, y, hcs, hy, hout, hprod⟩ := hd
  have happly : g.Leftmost ([] ++ .nonTerminal nt :: []) ((nt, k) :: cs) y :=
    .step (by simp) hk (by simpa [Production.visible] using hcs)
  refine ⟨(nt, k) :: cs, y, happly, hy, hout, ?_⟩
  rw [List.map_cons, List.map_cons, hprod]
  exact congrArg (· :: _) hk.symm

end Derivation

namespace ExhaustionPolicy

variable {policy : ExhaustionPolicy} {ps : List Production}

/-- A policy leaves all alternatives open, or those that one of its preferences admits. -/
theorem candidates_eq (policy : ExhaustionPolicy) (ps : List Production) :
    policy.candidates ps = ps ∨
      ∃ f : Preference, policy.candidates ps = ps.filter f.admits ∧ policy.candidates ps ≠ [] := by
  unfold candidates
  cases hf : policy.preferences.findSome? fun f =>
      let preferred := ps.filter f.admits
      if preferred.isEmpty then none else some preferred with
  | none => exact .inl rfl
  | some preferred =>
    obtain ⟨f, _, hpreferred⟩ := List.exists_of_findSome?_eq_some hf
    simp only [Option.ite_none_left_eq_some, Option.some.injEq] at hpreferred
    obtain ⟨hne, rfl⟩ := hpreferred
    exact .inr ⟨f, rfl, fun hnil => hne (List.isEmpty_iff.mpr hnil)⟩

/-- A policy only leaves alternatives out. -/
theorem mem_of_mem_candidates {p : Production} (h : p ∈ policy.candidates ps) : p ∈ ps := by
  rcases policy.candidates_eq ps with hall | ⟨f, hf, _⟩
  · exact hall ▸ h
  · exact (List.mem_filter.mp (hf ▸ h)).1

/-- A policy leaves some of the alternatives. -/
theorem candidates_ne_nil (h : ps ≠ []) : policy.candidates ps ≠ [] := by
  rcases policy.candidates_eq ps with hall | ⟨_, _, hne⟩
  · rw [hall]
    exact h
  · exact hne

end ExhaustionPolicy

namespace Generator

variable {σ : Type}

theorem candidates_ne_nil {g : Generator} {nt : Nat} (h : g.grammar.productions nt ≠ [])
    (remaining : Int) : g.candidates nt remaining ≠ [] := by
  unfold candidates
  split
  · exact ExhaustionPolicy.candidates_ne_nil h
  · exact h

/-- Whichever is chosen is an alternative. -/
theorem mem_productions_of_candidates_eq {g : Generator} {nt : Nat} {remaining : Int}
    {p : Production} {ps : List Production} (h : g.candidates nt remaining = ps) (hp : p ∈ ps) :
    p ∈ g.grammar.productions nt := by
  subst h
  unfold candidates at hp
  split at hp
  · exact ExhaustionPolicy.mem_of_mem_candidates hp
  · exact hp

theorem expand_leaf [Chooser σ] {g : Generator} {levels : Nat} {x : Symbol}
    (hx : x.isNonTerminal = false) (remaining : Int) (source : σ) :
    g.expand levels x remaining source = (.ok ⟨x.char?.toList, []⟩, source) := by
  cases x with
  | nonTerminal => cases hx
  | terminal | empty | endMark =>
    rw [expand]
    rfl

/-! ## One symbol after the other -/

section

variable {expand : Symbol → Int → Draw σ Derivation} {x : Symbol} {xs : List Symbol}
  {remaining : Int} {source source' between : σ} {d : Derivation} {e : GenerationError}

theorem expandAll_cons_of_error (hx : expand x remaining source = (.error e, between)) :
    expandAll expand (x :: xs) remaining source = (.error e, between) := by
  rw [expandAll, hx]

/-- The symbols after the first one have what it leaves, and what they derive comes behind it. -/
theorem expandAll_cons_of_ok (hx : expand x remaining source = (.ok d, between)) :
    expandAll expand (x :: xs) remaining source =
      (expandAll expand xs (remaining - d.output.length) between).map (Except.map d.append) id := by
  rw [expandAll, hx]
  simp only
  rcases expandAll expand xs (remaining - d.output.length) between with ⟨_ | _, _⟩ <;> rfl

theorem exists_of_expandAll_cons (h : expandAll expand (x :: xs) remaining source = (.ok d, source')) :
    ∃ first between rest, expand x remaining source = (.ok first, between) ∧
      expandAll expand xs (remaining - first.output.length) between = (.ok rest, source') ∧
      d = first.append rest := by
  rcases hx : expand x remaining source with ⟨e | first, between⟩
  · rw [expandAll_cons_of_error hx] at h
    cases h
  · rw [expandAll_cons_of_ok hx] at h
    rcases hxs : expandAll expand xs (remaining - first.output.length) between with ⟨e | rest, last⟩
    · rw [hxs] at h
      cases h
    · rw [hxs] at h
      cases h
      exact ⟨first, between, rest, rfl, hxs, rfl⟩

end

section

variable [Chooser σ] {g : Generator} {levels nt : Nat} {remaining : Int} {source source' : σ}

/-- A non-terminal without alternatives. -/
theorem expand_nonTerminal_of_nil (hc : g.candidates nt remaining = []) :
    g.expand (levels + 1) (.nonTerminal nt) remaining source =
      (.error (.noProductions (g.grammar.nameOf nt)), source) := by
  rw [expand, hc]

/-- A non-terminal derives what the candidate that is chosen for it derives, one level deeper. -/
theorem expand_nonTerminal_of_cons {p : Production} {ps : List Production}
    (hc : g.candidates nt remaining = p :: ps) :
    g.expand (levels + 1) (.nonTerminal nt) remaining source =
      (expandAll (g.expand levels) ((p :: ps).get (Chooser.choose ps.length source).1).rhs
        remaining (Chooser.choose ps.length source).2).map
        (Except.map fun d =>
          ⟨d.output, (p :: ps).get (Chooser.choose ps.length source).1 :: d.productions⟩) id := by
  rw [expand, hc]
  simp only
  rcases expandAll (g.expand levels) ((p :: ps).get (Chooser.choose ps.length source).1).rhs
    remaining (Chooser.choose ps.length source).2 with ⟨_ | _, _⟩ <;> rfl

theorem exists_of_expand_nonTerminal {d : Derivation}
    (h : g.expand (levels + 1) (.nonTerminal nt) remaining source = (.ok d, source')) :
    ∃ p ps i between rest, g.candidates nt remaining = p :: ps ∧
      Chooser.choose ps.length source = (i, between) ∧
      expandAll (g.expand levels) ((p :: ps).get i).rhs remaining between = (.ok rest, source') ∧
      d = ⟨rest.output, (p :: ps).get i :: rest.productions⟩ := by
  rcases hc : g.candidates nt remaining with _ | ⟨p, ps⟩
  · rw [expand_nonTerminal_of_nil hc] at h
    cases h
  · rw [expand_nonTerminal_of_cons hc] at h
    rcases hi : Chooser.choose ps.length source with ⟨i, between⟩
    rw [hi] at h
    rcases hrhs : expandAll (g.expand levels) ((p :: ps).get i).rhs remaining between with
      ⟨e | rest, last⟩
    · simp only [hrhs] at h
      cases h
    · simp only [hrhs] at h
      cases h
      exact ⟨p, ps, i, between, rest, rfl, hi, hrhs, rfl⟩

end

/-! ## What is put out -/

theorem isFrom_of_expandAll {g : Grammar} {expand : Symbol → Int → Draw σ Derivation}
    (hexpand : ∀ x remaining source d source',
      expand x remaining source = (.ok d, source') → d.IsFrom g [x])
    {xs : List Symbol} {remaining : Int} {source source' : σ} {d : Derivation}
    (h : expandAll expand xs remaining source = (.ok d, source')) : d.IsFrom g xs := by
  induction xs generalizing remaining source d with
  | nil =>
    cases h
    exact Derivation.isFrom_nil
  | cons x xs ih =>
    obtain ⟨e, between, rest, hx, hxs, rfl⟩ := exists_of_expandAll_cons h
    exact (hexpand _ _ _ _ _ hx).append (ih hxs)

theorem isFrom_of_expand_leaf [Chooser σ] {g : Generator} {levels : Nat} {x : Symbol}
    (hx : x.isNonTerminal = false) {remaining : Int} {source source' : σ} {d : Derivation}
    (h : g.expand levels x remaining source = (.ok d, source')) : d.IsFrom g.grammar [x] := by
  rw [expand_leaf hx] at h
  cases h
  exact Derivation.isFrom_leaf hx

/-- The induction is on the levels left: what is below a non-terminal has one less. -/
theorem isFrom_of_expand [Chooser σ] {g : Generator} {levels : Nat} {x : Symbol}
    {remaining : Int} {source source' : σ} {d : Derivation}
    (h : g.expand levels x remaining source = (.ok d, source')) : d.IsFrom g.grammar [x] := by
  induction levels generalizing x remaining source source' d with
  | zero =>
    cases x with
    | nonTerminal => cases h
    | terminal | empty | endMark => exact isFrom_of_expand_leaf rfl h
  | succ levels ih =>
    cases x with
    | terminal | empty | endMark => exact isFrom_of_expand_leaf rfl h
    | nonTerminal nt =>
      obtain ⟨p, ps, i, between, rest, hps, _, hrest, rfl⟩ := exists_of_expand_nonTerminal h
      exact .apply (mem_productions_of_candidates_eq hps (List.getElem_mem _))
        (isFrom_of_expandAll (fun _ _ _ _ _ h => ih h) hrest)

/-- A generated sentence has a leftmost derivation that applies the productions on record. -/
theorem leftmost_of_derive [Chooser σ] {g : Generator} (hg : g.grammar.NoEndMark) {budget : Int}
    {source source' : σ} {d : Derivation} (h : g.derive budget source = (.ok d, source')) :
    ∃ cs, g.grammar.Leftmost [g.grammar.startSymbol] cs (symbols d.output) ∧
      d.productions.map some = cs.map fun c => g.grammar.production? c.1 c.2 := by
  obtain ⟨cs, y, hcs, hy, hout, hprod⟩ := isFrom_of_expand h
  have hstart : [g.grammar.startSymbol].filter (fun x => !x.isEmpty) = [g.grammar.startSymbol] :=
    rfl
  rw [hstart] at hcs
  have hmark : .endMark ∉ y :=
    hcs.not_mem (fun nt k p hp => hg.not_mem_visible hp) (by simp [Grammar.startSymbol])
  have hempty : .empty ∉ y :=
    hcs.not_mem (fun nt k p _ => Grammar.empty_not_mem_visible p) (by simp [Grammar.startSymbol])
  refine ⟨cs, ?_, hprod⟩
  rw [hout, ← eq_symbols_characters fun x hx => ?_]
  · exact hcs
  · cases x with
    | terminal c => rfl
    | nonTerminal nt => cases hy _ hx
    | empty => exact absurd hx hempty
    | endMark => exact absurd hx hmark

end Generator

end TopDown
