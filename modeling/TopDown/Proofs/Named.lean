-- Texts in which every name is the name of something. The writers put a question mark where a
-- non-terminal has no name or an alternative is missing; the ones below put nothing at all there,
-- and over a well-formed grammar they write all that the parser and the generator put on record.
import Mathlib
import TopDown.Display.Trace
import TopDown.Proofs.Generated
import TopDown.Proofs.Loading
import TopDown.Proofs.SententialForm

namespace TopDown

/-! ## Writing what has a name -/

namespace Grammar

/-- The spelling of a symbol, none for a number that has no name. -/
def spell? (g : Grammar) : Symbol → Option String
  | .nonTerminal id => g.nameOf? id
  | x => some (g.spell x)

def spellAll? (g : Grammar) (xs : List Symbol) : Option String :=
  (xs.mapM g.spell?).map fun words => " ".intercalate words

def write? (g : Grammar) (p : Production) : Option String := do
  let left ← g.nameOf? p.lhs
  let right ← g.spellAll? p.rhs
  return left ++ " " ++ arrow.toString ++ " " ++ right

end Grammar

/-- An action in words, none for an alternative that is missing or cannot be written. -/
def Action.describe? (g : Grammar) : Action → Option String
  | consume x => (g.spell? x).map fun word => "consume " ++ word
  | expand nt _ alternative => (g.production? nt alternative).bind g.write?
  | reject reason => some ("error: " ++ reason.message)

/-- All three texts of the record are made of names that are there. -/
structure Record.Named (g : Grammar) (r : Record) : Prop where
  stack : g.spellAll? r.stack.reverse = some (r.stackText g)
  input : g.spellAll? r.remaining = some (r.inputText g)
  action : r.action.describe? g = some (r.action.describe g)

/-- All productions of the derivation are written with names that are there. -/
def Derivation.Named (g : Grammar) (d : Derivation) : Prop :=
  d.productions.mapM g.write? = some (d.trace g)

namespace Grammar

variable {g : Grammar}

/-- A number in the place of a non-terminal has a name. -/
def Registered (g : Grammar) : Symbol → Prop
  | .nonTerminal id => id < g.names.length
  | .terminal _ | .empty | .endMark => True

theorem registered_of_fits {x : Symbol} (h : x.Fits g.names) : g.Registered x := by
  cases x with
  | nonTerminal => exact h
  | terminal | empty | endMark => trivial

theorem registered_of_mem_symbols {w : List Char} {x : Symbol} (h : x ∈ symbols w) :
    g.Registered x := by
  obtain ⟨c, _, rfl⟩ := List.mem_map.mp h
  trivial

theorem spell?_eq {x : Symbol} (h : g.Registered x) : g.spell? x = some (g.spell x) := by
  cases x with
  | nonTerminal id => exact nameOf?_eq h
  | terminal | empty | endMark => rfl

theorem spellAll?_eq {xs : List Symbol} (h : ∀ x ∈ xs, g.Registered x) :
    g.spellAll? xs = some (g.spellAll xs) := by
  rw [spellAll?, mapM_eq_pure fun x hx => spell?_eq (h x hx)]
  rfl

theorem write?_eq {nt : Nat} {p : Production} (h : p.Fits g.names nt) :
    g.write? p = some (g.write p) := by
  have hlhs : g.nameOf? p.lhs = some (g.nameOf p.lhs) := nameOf?_eq (h.lhs_eq ▸ h.registered)
  have hrhs := spellAll?_eq fun x hx => registered_of_fits (h.rhs_fits x hx)
  rw [write?, hlhs, hrhs]
  rfl

/-- What is derived from registered symbols is registered. -/
theorem Leftmost.registered (hg : g.WellFormed) {x y : List Symbol} {cs : List Choice}
    (h : g.Leftmost x cs y) (hx : ∀ m ∈ x, g.Registered m) : ∀ m ∈ y, g.Registered m := by
  refine h.forall_mem (fun nt k p _ hp m hm => ?_) hx
  exact registered_of_fits ((hg.fits hp).rhs_fits m (List.mem_filter.mp hm).1)

end Grammar

/-! ## Runs -/

namespace Parser

variable {p : Parser}

theorem Move.describe?_eq (hg : p.grammar.WellFormed) {u v : List Char} {form : List Symbol}
    {n : Nat} {a : Action} {t : State} (h : p.Move u n v form a t) :
    a.describe? p.grammar = some (a.describe p.grammar) := by
  cases h with
  | consume | accept | reject => rfl
  | expand hk =>
    obtain ⟨q, hq, _⟩ := exists_of_choice? hk
    simp only [Action.describe?, Action.describe, hq, Option.bind_some, Option.map_some,
      Option.getD_some]
    exact Grammar.write?_eq (hg.fits hq)

/-- No record of any run has a question mark for a name, whatever the table says. -/
theorem Reaches.named (hg : p.grammar.WellFormed) {w : String} {rs : List Record} {t : State}
    (h : p.Reaches (p.start w) rs t) {r : Record} (hr : r ∈ rs) : r.Named p.grammar := by
  obtain ⟨qs, before, next, hreach, hstep⟩ := h.exists_step hr
  obtain ⟨u, v, form, a, _, hd, rfl, hmove, rfl⟩ := hreach.exists_move hstep
  have hstart : ∀ x ∈ [p.grammar.startSymbol], p.grammar.Registered x := by
    simpa [Grammar.startSymbol, Grammar.Registered] using hg.start_lt
  have hform := Grammar.Leftmost.registered hg hd hstart
  refine ⟨?_, ?_, hmove.describe?_eq hg⟩
  · refine Grammar.spellAll?_eq fun x hx => ?_
    rcases List.mem_append.mp (List.mem_reverse.mp hx) with hx | hx
    · exact hform x (List.mem_append_right _ hx)
    · rw [List.mem_singleton.mp hx]
      trivial
  · refine Grammar.spellAll?_eq fun x hx => ?_
    rcases List.mem_append.mp hx with hx | hx
    · exact Grammar.registered_of_mem_symbols hx
    · rw [List.mem_singleton.mp hx]
      trivial

end Parser

/-! ## Generated sentences -/

namespace Generator

variable {σ : Type} {g : Generator}

theorem error_of_expandAll {P : GenerationError → Prop}
    {expand : Symbol → Int → Draw σ Derivation} {xs : List Symbol}
    (hexpand : ∀ x ∈ xs, ∀ remaining source e source',
      expand x remaining source = (.error e, source') → P e)
    {remaining : Int} {source source' : σ} {e : GenerationError}
    (h : expandAll expand xs remaining source = (.error e, source')) : P e := by
  induction xs generalizing remaining source with
  | nil => cases h
  | cons x xs ih =>
    rcases hx : expand x remaining source with ⟨e' | d, between⟩
    · rw [expandAll_cons_of_error hx] at h
      cases h
      exact hexpand x List.mem_cons_self _ _ _ _ hx
    · rw [expandAll_cons_of_ok hx] at h
      rcases hxs : expandAll expand xs (remaining - d.output.length) between with ⟨e' | rest, last⟩
      · rw [hxs] at h
        cases h
        exact ih (fun y hy => hexpand y (List.mem_cons_of_mem x hy)) hxs
      · rw [hxs] at h
        cases h

/-- Only a derivation that goes too deep fails. The induction is on the levels left. -/
theorem error_of_expand [Chooser σ] (hg : g.grammar.WellFormed) {levels : Nat} {x : Symbol}
    (hx : g.grammar.Registered x) {remaining : Int} {source source' : σ} {e : GenerationError}
    (h : g.expand levels x remaining source = (.error e, source')) :
    e = .depthLimitExceeded g.maxDepth := by
  induction levels generalizing x remaining source source' e with
  | zero =>
    cases x with
    | nonTerminal =>
      rw [expand] at h
      cases h
      rfl
    | terminal | empty | endMark =>
      rw [expand_leaf rfl] at h
      cases h
  | succ levels ih =>
    cases x with
    | terminal | empty | endMark =>
      rw [expand_leaf rfl] at h
      cases h
    | nonTerminal nt =>
      rcases hps : g.candidates nt remaining with _ | ⟨p, ps⟩
      · exact absurd hps (candidates_ne_nil (hg.productions_ne_nil nt hx) remaining)
      · rw [expand_nonTerminal_of_cons hps] at h
        rcases hi : Chooser.choose ps.length source with ⟨i, between⟩
        rw [hi] at h
        rcases hrest : expandAll (g.expand levels) ((p :: ps).get i).rhs remaining between with
          ⟨e' | d, last⟩
        · simp only [hrest] at h
          cases h
          refine error_of_expandAll (fun y hy _ _ _ _ he => ih ?_ he) hrest
          refine Grammar.registered_of_fits ((hg.productions_fit nt _ ?_).rhs_fits y hy)
          exact mem_productions_of_candidates_eq hps (List.get_mem _ _)
        · simp only [hrest] at h
          cases h

theorem named_of_deriveFrom [Chooser σ] (hg : g.grammar.WellFormed) {x : Symbol} {budget : Int}
    {source source' : σ} {d : Derivation} (h : g.deriveFrom x budget source = (.ok d, source')) :
    d.Named g.grammar := by
  obtain ⟨cs, _, _, _, _, hprod⟩ := isFrom_of_expand h
  refine mapM_eq_pure fun p hp => ?_
  have hmem : some p ∈ d.productions.map some := List.mem_map_of_mem hp
  rw [hprod] at hmem
  obtain ⟨c, _, hc⟩ := List.mem_map.mp hmem
  exact Grammar.write?_eq (hg.fits hc)

end Generator

/-! ## Whatever is loaded -/

namespace Configuration

/-- The names are the rule keys in order, no name, symbol or alternative is missing where another
part refers to it, and so every record of a run and every production of a derivation is written
with the names that it speaks of. The generator has always something to choose from. -/
theorem what_is_loaded_has_a_name_for_everything {text : String} {c : Configuration}
    (h : ofText text = .ok c) :
    (∃ d, Document.ofText text = .ok d ∧ c.grammar.names = Keyed.keys d.rules) ∧
    c.WellFormed ∧
    (∀ w rs t, (Parser.ofConfiguration c).Reaches ((Parser.ofConfiguration c).start w) rs t →
      ∀ r ∈ rs, r.Named c.grammar) ∧
    (∀ w report, (Parser.ofConfiguration c).run w = some report →
      ∀ r ∈ report.trace, r.Named c.grammar) ∧
    ∀ (σ : Type) [Chooser σ] (policy : ExhaustionPolicy) (maxDepth : Nat) (budget : Int)
      (source source' : σ),
      (∀ symbol, Generator.derive ⟨c.grammar, policy, maxDepth⟩ budget source ≠
        (.error (.noProductions symbol), source')) ∧
      ∀ d, Generator.derive ⟨c.grammar, policy, maxDepth⟩ budget source = (.ok d, source') →
        d.Named c.grammar := by
  obtain ⟨d, hd, hc⟩ := exists_document_of_ofText h
  obtain ⟨hwf, hnames⟩ := Document.wellFormed_of_configuration (Document.distinct_of_ofText hd) hc
  have hrecords : ∀ w rs t,
      (Parser.ofConfiguration c).Reaches ((Parser.ofConfiguration c).start w) rs t →
      ∀ r ∈ rs, r.Named c.grammar := by
    intro w rs t hreach r hr
    exact hreach.named hwf.grammar hr
  refine ⟨⟨d, hd, hnames⟩, hwf, hrecords, ?_, ?_⟩
  · intro w report hrun
    obtain ⟨t, hreach, _⟩ := Parser.reaches_of_runWithin hrun
    exact hrecords w _ t hreach
  · intro σ _ policy maxDepth budget source source'
    refine ⟨?_, ?_⟩
    · intro symbol hderive
      have hstart : c.grammar.Registered c.grammar.startSymbol := hwf.grammar.start_lt
      have herror := Generator.error_of_expand (g := ⟨c.grammar, policy, maxDepth⟩) hwf.grammar
        hstart hderive
      cases herror
    · intro d hderive
      exact Generator.named_of_deriveFrom (g := ⟨c.grammar, policy, maxDepth⟩) hwf.grammar hderive

/-- A question mark can be a name like any other. -/
theorem a_question_mark_can_be_the_name : ∃ c,
    ofText ("[\"n\", \"?\", \"?\", \x7b\"?\": [[\"a\", \"?\"], [\"ε\"]]\x7d, \x7b\x7d, \x7b\x7d, " ++
      "\x7b\"?\": \x7b\"a\": \"a ?\", \"$\": \"? → ε\"\x7d\x7d]") = .ok c ∧
    c.WellFormed ∧ ∀ w report, (Parser.ofConfiguration c).run w = some report →
      ∀ r ∈ report.trace, r.Named c.grammar := by
  refine Exists.imp (fun c hc => ⟨hc, ?_⟩) (exists_of_isOk ?_)
  · obtain ⟨_, hwf, _, hrun, _⟩ := what_is_loaded_has_a_name_for_everything hc
    exact ⟨hwf, hrun⟩
  · cbv

end Configuration

end TopDown
