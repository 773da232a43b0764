-- Numbers are only names. Where a second grammar, table and policy are those of a first with the
-- numbers of the non-terminals sent to others, the parser and the generator do the same on both, step
-- by step, and what is shown of it is the same text.
import Mathlib
import TopDown.Display.Trace
import TopDown.Proofs.Stepping

namespace TopDown

/-! ## Renaming -/

/-- The symbol with the number of its non-terminal sent to another. -/
def Symbol.rename (f : Nat → Nat) : Symbol → Symbol
  | .nonTerminal id => .nonTerminal (f id)
  | .terminal c => .terminal c
  | .empty => .empty
  | .endMark => .endMark

def Production.rename (f : Nat → Nat) (p : Production) : Production :=
  ⟨f p.lhs, p.rhs.map (Symbol.rename f)⟩

def Action.rename (f : Nat → Nat) : Action → Action
  | .consume x => .consume (x.rename f)
  | .expand nt lookahead alternative => .expand (f nt) (lookahead.rename f) alternative
  | .reject reason => .reject reason

def State.rename (f : Nat → Nat) (s : State) : State :=
  { s with stack := s.stack.map (Symbol.rename f), input := s.input.map (Symbol.rename f) }

def Record.rename (f : Nat → Nat) (r : Record) : Record where
  step := r.step
  stack := r.stack.map (Symbol.rename f)
  remaining := r.remaining.map (Symbol.rename f)
  action := r.action.rename f

def Preference.rename (f : Nat → Nat) : Preference → Preference
  | .epsilon => .epsilon
  | .mentions x => .mentions (x.rename f)

def Derivation.rename (f : Nat → Nat) (d : Derivation) : Derivation :=
  ⟨d.output, d.productions.map (Production.rename f)⟩

/-- `h` is `g` with the numbers sent to others: no two to one, each with its name and its
alternatives. -/
structure Grammar.Renamed (f : Nat → Nat) (g h : Grammar) : Prop where
  injective : Function.Injective f
  nameOf?_eq : ∀ id, h.nameOf? (f id) = g.nameOf? id
  start_eq : h.start = f g.start
  productions_eq : ∀ nt, h.productions (f nt) = (g.productions nt).map (Production.rename f)

/-- The same of the entries of the table. -/
structure Parser.Renamed (f : Nat → Nat) (p q : Parser) : Prop where
  grammar : p.grammar.Renamed f q.grammar
  lookup_eq : ∀ nt x, q.table.lookup (f nt) (x.rename f) = p.table.lookup nt x

/-- The same of the preferences of the policy. -/
structure Generator.Renamed (f : Nat → Nat) (g h : Generator) : Prop where
  grammar : g.grammar.Renamed f h.grammar
  preferences_eq : h.policy.preferences = g.policy.preferences.map (Preference.rename f)
  maxDepth_eq : h.maxDepth = g.maxDepth

/-! ## Symbols and productions -/

section

variable {f : Nat → Nat} {p : Production} {x y : Symbol}

@[simp] theorem Symbol.rename_nonTerminal (id : Nat) :
    (Symbol.nonTerminal id).rename f = .nonTerminal (f id) := rfl

@[simp] theorem Symbol.rename_terminal (c : Char) : (Symbol.terminal c).rename f = .terminal c := rfl

@[simp] theorem Symbol.rename_endMark : Symbol.endMark.rename f = .endMark := rfl

theorem Symbol.rename_injective (hf : Function.Injective f) :
    Function.Injective (Symbol.rename f) := by
  intro x y h
  cases x <;> cases y <;> simp_all [Symbol.rename, hf.eq_iff]

theorem Symbol.isEmpty_rename : (x.rename f).isEmpty = x.isEmpty := by cases x <;> rfl

theorem Production.visible_rename : (p.rename f).visible = p.visible.map (Symbol.rename f) := by
  unfold Production.visible Production.rename
  rw [List.filter_map]
  congr 2
  funext x
  simp [Symbol.isEmpty_rename]

theorem Production.isEpsilon_rename (hf : Function.Injective f) :
    (p.rename f).isEpsilon = p.isEpsilon := by
  have hempty : p.rhs.map (Symbol.rename f) = [Symbol.empty].map (Symbol.rename f) ↔
      p.rhs = [.empty] := (Symbol.rename_injective hf).list_map.eq_iff
  exact decide_eq_decide.mpr hempty

theorem Production.mentions_rename (hf : Function.Injective f) :
    (p.rename f).mentions (x.rename f) = p.mentions x :=
  decide_eq_decide.mpr (List.mem_map_of_injective (Symbol.rename_injective hf))

theorem Preference.admits_rename (hf : Function.Injective f) (e : Preference) :
    (e.rename f).admits (p.rename f) = e.admits p := by
  cases e with
  | epsilon => exact Production.isEpsilon_rename hf
  | mentions x => exact Production.mentions_rename hf

/-- A sentence has no non-terminals. -/
theorem tokens_rename (w : String) : (tokens w).map (Symbol.rename f) = tokens w := by
  simp [tokens, Function.comp_def]

end

/-! ## Grammars -/

namespace Grammar.Renamed

variable {f : Nat → Nat} {g h : Grammar} (hg : g.Renamed f h)
include hg

theorem nameOf_eq (id : Nat) : h.nameOf (f id) = g.nameOf id := by
  rw [nameOf, nameOf, hg.nameOf?_eq]

theorem spell_eq (x : Symbol) : h.spell (x.rename f) = g.spell x := by
  cases x with
  | nonTerminal id => exact hg.nameOf_eq id
  | terminal | empty | endMark => rfl

theorem spellings_eq (xs : List Symbol) :
    (xs.map (Symbol.rename f)).map h.spell = xs.map g.spell := by
  rw [List.map_map]
  exact List.map_congr_left fun x _ => hg.spell_eq x

theorem spellAll_eq (xs : List Symbol) : h.spellAll (xs.map (Symbol.rename f)) = g.spellAll xs := by
  rw [spellAll, spellAll, hg.spellings_eq]

theorem write_eq (p : Production) : h.write (p.rename f) = g.write p := by
  unfold write ruleLine
  rw [show (p.rename f).lhs = f p.lhs from rfl, hg.nameOf_eq]
  exact congrArg _ (hg.spellAll_eq p.rhs)

theorem production?_eq (nt k : Nat) :
    h.production? (f nt) k = (g.production? nt k).map (Production.rename f) := by
  rw [production?, production?, hg.productions_eq, List.getElem?_map]

/-- A text names the same alternative. -/
theorem alternativeOf?_eq (nt : Nat) (text : String) :
    h.alternativeOf? (f nt) text = g.alternativeOf? nt text := by
  have hspelled : ∀ words, h.spelledBy? (f nt) words = g.spelledBy? nt words := by
    intro words
    unfold spelledBy?
    rw [hg.productions_eq, List.findIdx?_map]
    congr 1
    funext p
    exact congrArg (· == words) (hg.spellings_eq p.rhs)
  unfold alternativeOf?
  simp only [hspelled, hg.nameOf?_eq]

end Grammar.Renamed

/-! ## Runs -/

namespace Parser

variable {f : Nat → Nat} {p q : Parser}

theorem lookahead_rename (s : State) : (s.rename f).lookahead = s.lookahead.rename f := by
  unfold State.lookahead State.remaining State.rename
  rw [← List.map_drop]
  cases s.input.drop s.cursor <;> rfl

theorem Renamed.choice?_eq (hp : p.Renamed f q) (nt : Nat) (x : Symbol) :
    q.choice? (f nt) (x.rename f) = p.choice? nt x := by
  unfold choice?
  rw [hp.lookup_eq]
  simp only [hp.grammar.production?_eq, Option.isSome_map]

theorem Renamed.action_eq (hp : p.Renamed f q) (s : State) :
    q.action (s.rename f) = (p.action s).rename f := by
  have htop : (s.rename f).top? = s.top?.map (Symbol.rename f) := List.head?_map
  have hmatch : ∀ x : Symbol, x.rename f = x →
      (if x = s.lookahead.rename f then Action.consume x else .reject .unexpectedTop) =
        (if x = s.lookahead then Action.consume x else .reject .unexpectedTop).rename f := by
    intro x hx
    have hiff : x = s.lookahead.rename f ↔ x = s.lookahead := by
      conv_lhs => rw [← hx]
      exact (Symbol.rename_injective hp.grammar.injective).eq_iff
    by_cases h : x = s.lookahead
    · rw [if_pos h, if_pos (hiff.mpr h), Action.rename, hx]
    · rw [if_neg h, if_neg (hiff.not.mpr h), Action.rename]
  unfold action
  rw [htop, lookahead_rename]
  cases s.top? with
  | none => rfl
  | some x =>
    cases x with
    | nonTerminal nt =>
      simp only [Option.map_some, Symbol.rename_nonTerminal, hp.choice?_eq]
      cases p.choice? nt s.lookahead <;> rfl
    | empty => rfl
    | terminal c => exact hmatch (.terminal c) rfl
    | endMark => exact hmatch .endMark rfl

theorem Renamed.perform_eq (hp : p.Renamed f q) (s : State) (a : Action) :
    q.perform (s.rename f) (a.rename f) = (p.perform s a).rename f := by
  cases a with
  | consume x =>
    have hmark : x.rename f = .endMark ↔ x = .endMark :=
      (Symbol.rename_injective hp.grammar.injective).eq_iff' rfl
    simp [Action.rename, perform, State.rename, hmark, List.map_tail]
  | expand nt x k =>
    have hexpansion : q.expansion (f nt) k = (p.expansion nt k).map (Symbol.rename f) := by
      unfold expansion
      rw [hp.grammar.production?_eq]
      cases p.grammar.production? nt k with
      | none => rfl
      | some r => exact Production.visible_rename
    simp [Action.rename, perform, State.rename, hexpansion, List.map_tail]
  | reject reason => rfl

/-- One step on what is renamed is the step, renamed. -/
theorem Renamed.step_eq (hp : p.Renamed f q) (s : State) :
    q.step (s.rename f) = ((p.step s).1.rename f, (p.step s).2.map (Record.rename f)) := by
  have hfin : (s.rename f).isFinished = s.isFinished := rfl
  have hremaining : (s.rename f).remaining = s.remaining.map (Symbol.rename f) :=
    (List.map_drop).symm
  cases hs : s.isFinished with
  | true =>
    rw [step_finished (hfin.trans hs), step_finished hs]
    rfl
  | false =>
    simp only [step, hfin, hs, hp.action_eq, hp.perform_eq, hremaining]
    rfl

theorem Renamed.runFrom_eq (hp : p.Renamed f q) (fuel : Nat) (s : State) :
    q.runFrom fuel (s.rename f) =
      (p.runFrom fuel s).map fun (last, records) =>
        (last.rename f, records.map (Record.rename f)) := by
  induction fuel generalizing s with
  | zero =>
    have hdone : isDone (s.rename f) = isDone s := by simp [isDone, State.rename, State.isFinished]
    rw [runFrom, runFrom, hdone]
    split <;> rfl
  | succ fuel ih =>
    have hdone : isDone (s.rename f) = isDone s := by simp [isDone, State.rename, State.isFinished]
    rw [runFrom, runFrom, hdone, hp.step_eq]
    split
    · rfl
    · simp only [ih, Option.map_map]
      congr 1
      funext x
      cases (p.step s).2 <;> rfl

/-- What there is to see of a run: the status, the number of steps and the rows of the records. -/
def seen (g : Grammar) (r : Report) : Status × Nat × List (List String) :=
  (r.status, r.steps, r.trace.map (Record.row g))

theorem row_rename {g h : Grammar} (hg : g.Renamed f h) (r : Record) :
    (r.rename f).row h = r.row g := by
  have hstack : (r.rename f).stackText h = r.stackText g := by
    unfold Record.stackText Record.rename
    rw [← List.map_reverse, hg.spellAll_eq]
  have hdescribe : (r.action.rename f).describe h = r.action.describe g := by
    cases r.action with
    | consume x => simp [Action.rename, Action.describe, hg.spell_eq]
    | expand nt x k =>
      simp only [Action.rename, Action.describe, hg.production?_eq, Option.map_map]
      congr 2
      funext p
      exact hg.write_eq p
    | reject => rfl
  unfold Record.row
  rw [hstack]
  unfold Record.inputText Record.rename
  rw [hg.spellAll_eq, hdescribe]

/-- Both runs end or neither does, and what there is to see of them is the same. -/
theorem Renamed.run_eq (hp : p.Renamed f q) (w : String) :
    (q.run w).map (seen q.grammar) = (p.run w).map (seen p.grammar) := by
  have hstart : q.start w = (p.start w).rename f := by
    simp [start, State.rename, tokens_rename, Grammar.startSymbol, hp.grammar.start_eq]
  have hruns : ∀ fuel, q.runFrom fuel (q.start w) =
      (p.runFrom fuel (p.start w)).map fun (last, records) =>
        (last.rename f, records.map (Record.rename f)) := by
    intro fuel
    rw [hstart, hp.runFrom_eq]
  cases hrun : p.run w with
  | none =>
    have hnone : q.run w = none := by
      by_contra hsome
      obtain ⟨r, hr⟩ := Option.ne_none_iff_exists'.mp hsome
      obtain ⟨fuel, t, ht, _⟩ := run_eq_some_iff.mp hr
      rw [hruns, Option.map_eq_some_iff] at ht
      obtain ⟨⟨last, records⟩, hlast, _⟩ := ht
      rw [run_eq_of_runFrom hlast] at hrun
      cases hrun
    rw [hnone]
    rfl
  | some r =>
    obtain ⟨fuel, t, ht, hstatus, hsteps⟩ := run_eq_some_iff.mp hrun
    have hq : q.runFrom fuel (q.start w) = some (t.rename f, r.trace.map (Record.rename f)) := by
      rw [hruns, ht]
      rfl
    have hrows : (r.trace.map (Record.rename f)).map (Record.row q.grammar) =
        r.trace.map (Record.row p.grammar) := by
      rw [List.map_map]
      exact List.map_congr_left fun record _ => row_rename hp.grammar record
    rw [run_eq_of_runFrom hq, Option.map_some, Option.map_some, seen, seen, hrows, ← hstatus,
      ← hsteps]
    rfl

end Parser

/-! ## Derivations -/

namespace Generator

variable {f : Nat → Nat} {g h : Generator}

/-- The same candidates, renamed. -/
theorem Renamed.candidates_eq (hg : g.Renamed f h) (nt : Nat) (remaining : Int) :
    h.candidates (f nt) remaining =
      (g.candidates nt remaining).map (Production.rename f) := by
  have hpolicy : ∀ ps : List Production, h.policy.candidates (ps.map (Production.rename f)) =
      (g.policy.candidates ps).map (Production.rename f) := by
    intro ps
    unfold ExhaustionPolicy.candidates
    rw [hg.preferences_eq]
    induction g.policy.preferences with
    | nil => rfl
    | cons e es ih =>
      have hfilter : (ps.map (Production.rename f)).filter (e.rename f).admits =
          (ps.filter e.admits).map (Production.rename f) := by
        rw [List.filter_map]
        congr 2
        funext p
        exact Preference.admits_rename hg.grammar.injective e
      rw [List.map_cons, List.findSome?_cons, List.findSome?_cons]
      simp only [hfilter, List.isEmpty_map]
      cases (ps.filter e.admits).isEmpty with
      | true => exact ih
      | false => rfl
  unfold candidates
  rw [hg.grammar.productions_eq]
  simp only [hpolicy]
  split <;> rfl

theorem choose_congr {σ : Type} [Chooser σ] {n m : Nat} (h : n = m) (source : σ) :
    ((Chooser.choose n source).1 : Nat) = (Chooser.choose m source).1 ∧
      (Chooser.choose n source).2 = (Chooser.choose m source).2 := by
  subst h
  exact ⟨rfl, rfl⟩

/-- The result with its productions renamed, and the same source. -/
def renameDraw {σ : Type} (f : Nat → Nat) (x : Except GenerationError Derivation × σ) :
    Except GenerationError Derivation × σ :=
  (x.1.map (Derivation.rename f), x.2)

theorem expandAll_rename {σ : Type} {expand expand' : Symbol → Int → Draw σ Derivation}
    (hx : ∀ x remaining source,
      expand' (x.rename f) remaining source = renameDraw f (expand x remaining source))
    (xs : List Symbol) (remaining : Int) (source : σ) :
    expandAll expand' (xs.map (Symbol.rename f)) remaining source =
      renameDraw f (expandAll expand xs remaining source) := by
  induction xs generalizing remaining source with
  | nil => rfl
  | cons x xs ih =>
    rw [List.map_cons, expandAll, expandAll, hx]
    rcases expand x remaining source with ⟨e | d, source'⟩
    · rfl
    · simp only [renameDraw, Except.map, Derivation.rename]
      rw [ih]
      rcases expandAll expand xs (remaining - d.output.length) source' with ⟨e | d', source''⟩
      · rfl
      · simp [renameDraw, Except.map, Derivation.rename, Derivation.append]

/-- The induction is on the levels; at each the same alternative is chosen. -/
theorem Renamed.expand_eq {σ : Type} [Chooser σ] (hg : g.Renamed f h) (levels : Nat) (x : Symbol)
    (remaining : Int) (source : σ) :
    h.expand levels (x.rename f) remaining source =
      renameDraw f (g.expand levels x remaining source) := by
  induction levels generalizing x remaining source with
  | zero =>
    cases x with
    | nonTerminal nt => simp [expand, renameDraw, hg.maxDepth_eq, Except.map]
    | terminal | empty | endMark => rfl
  | succ levels ih =>
    cases x with
    | terminal | empty | endMark => rfl
    | nonTerminal nt =>
      rw [Symbol.rename_nonTerminal, expand, expand, hg.candidates_eq]
      rcases g.candidates nt remaining with _ | ⟨p, ps⟩
      · rw [hg.grammar.nameOf_eq]
        rfl
      · obtain ⟨hindex, hsource⟩ := choose_congr
          (List.length_map (Production.rename f) : _ = ps.length) source
        simp only [List.map_cons]
        rcases hi : Chooser.choose ps.length source with ⟨i, source'⟩
        rcases hi' : Chooser.choose (ps.map (Production.rename f)).length source with ⟨i', source''⟩
        rw [hi, hi'] at hindex hsource
        simp only at hindex hsource
        subst hsource
        have hchosen : (p.rename f :: ps.map (Production.rename f))[i'] = (p :: ps)[i].rename f := by
          simp only [Fin.getElem_fin, ← List.map_cons, List.getElem_map, hindex]
        have hrhs : ((p :: ps)[i].rename f).rhs = (p :: ps)[i].rhs.map (Symbol.rename f) := rfl
        simp only [hchosen, hrhs, expandAll_rename ih]
        rcases expandAll (g.expand levels) (p :: ps)[i].rhs remaining source'' with ⟨e | d, _⟩
        · rfl
        · rfl

/-- What there is to see of a derivation: the sentence and the texts of its productions. -/
def seen (g : Grammar) (d : Derivation) : String × List String := (d.sentence, d.trace g)

/-- Derivations under the same budget fail alike or are seen to be the same, and draw the same. -/
theorem Renamed.derive_eq {σ : Type} [Chooser σ] (hg : g.Renamed f h) (budget : Int) (source : σ) :
    (h.derive budget source).1.map (seen h.grammar) =
        (g.derive budget source).1.map (seen g.grammar) ∧
      (h.derive budget source).2 = (g.derive budget source).2 := by
  have hderive : h.derive budget source = renameDraw f (g.derive budget source) := by
    unfold derive deriveFrom
    rw [hg.maxDepth_eq, Grammar.startSymbol, hg.grammar.start_eq]
    exact hg.expand_eq (g.maxDepth + 1) g.grammar.startSymbol (effectiveBudget budget) source
  rw [hderive]
  refine ⟨?_, rfl⟩
  rcases g.derive budget source with ⟨e | d, source'⟩
  · rfl
  · have htrace : (d.rename f).trace h.grammar = d.trace g.grammar := by
      unfold Derivation.trace Derivation.rename
      rw [List.map_map]
      exact List.map_congr_left fun p _ => hg.grammar.write_eq p
    have hseen : seen h.grammar (d.rename f) = seen g.grammar d := Prod.ext rfl htrace
    exact congrArg Except.ok hseen

end Generator

end TopDown
