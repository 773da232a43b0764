-- Random sentences of a grammar. A budget of characters is shared by the whole sentence: each
-- symbol of a right-hand side is expanded with what its left siblings have left over. Where at
-- most one is left, a policy narrows the choice so that the expansion can wind down.
import TopDown.Generator.Policy
import TopDown.Random.Source
import TopDown.Spelling

namespace TopDown

inductive GenerationError where
  /-- A non-terminal lies deeper than the ceiling. -/
  | depthLimitExceeded (ceiling : Nat)
  | noProductions (symbol : String)
  deriving DecidableEq, Repr

def GenerationError.message : GenerationError → String
  | depthLimitExceeded ceiling =>
    "derivation exceeded the recursion ceiling of " ++ toString ceiling
  | noProductions symbol => "non-terminal '" ++ symbol ++ "' has no productions to expand"

/-- What was generated, and the productions applied, in order of application. -/
structure Derivation where
  output : List Char
  productions : List Production
  deriving DecidableEq, Repr

namespace Derivation

def empty : Derivation := ⟨[], []⟩

def append (d e : Derivation) : Derivation :=
  ⟨d.output ++ e.output, d.productions ++ e.productions⟩

def sentence (d : Derivation) : String := String.ofList d.output

/-- The texts of the productions. -/
def trace (d : Derivation) (g : Grammar) : List String := d.productions.map g.write

end Derivation

/-- The budget that stands in for zero and below. -/
def defaultBudget : Int := 20

def effectiveBudget (requested : Int) : Int := if requested ≤ 0 then defaultBudget else requested

def defaultMaxDepth : Nat := 512

/-- A computation that draws choices. What a failure has drawn stays drawn. -/
abbrev Draw (σ α : Type) := σ → Except GenerationError α × σ

structure Generator where
  grammar : Grammar
  policy : ExhaustionPolicy
  /-- The depth of the deepest non-terminal that is expanded; the root has depth zero. -/
  maxDepth : Nat := defaultMaxDepth

namespace Generator

variable {σ : Type}

def ofConfiguration (c : Configuration) : Generator :=
  { grammar := c.grammar, policy := .ofConfiguration c }

/-- The productions to choose from for `nt` when `remaining` characters are left. -/
def candidates (g : Generator) (nt : Nat) (remaining : Int) : List Production :=
  let ps := g.grammar.productions nt
  if remaining ≤ 1 then g.policy.candidates ps else ps

/-- Expand symbols from left to right, each with what is left of the budget. -/
def expandAll (expand : Symbol → Int → Draw σ Derivation) :
    List Symbol → Int → Draw σ Derivation
  | [], _, source => (.ok .empty, source)
  | x :: xs, remaining, source =>
    match expand x remaining source with
    | (.error e, source) => (.error e, source)
    | (.ok d, source) =>
      match expandAll expand xs (remaining - d.output.length) source with
      | (.error e, source) => (.error e, source)
      | (.ok rest, source) => (.ok (d.append rest), source)

/-- Expand one symbol, going down `levels` non-terminals at most. -/
def expand [Chooser σ] (g : Generator) : Nat → Symbol → Int → Draw σ Derivation
  | _, .terminal c, _, source => (.ok ⟨[c], []⟩, source)
  | _, .empty, _, source => (.ok .empty, source)
  | _, .endMark, _, source => (.ok .empty, source)
  | 0, .nonTerminal _, _, source => (.error (.depthLimitExceeded g.maxDepth), source)
  | levels + 1, .nonTerminal nt, remaining, source =>
    match g.candidates nt remaining with
    | [] => (.error (.noProductions (g.grammar.nameOf nt)), source)
    | p :: ps =>
      let (i, source) := Chooser.choose ps.length source
      let chosen := (p :: ps)[i]
      match expandAll (g.expand levels) chosen.rhs remaining source with
      | (.error e, source) => (.error e, source)
      | (.ok d, source) => (.ok ⟨d.output, chosen :: d.productions⟩, source)

/-- Derive a sentence from any symbol. -/
def deriveFrom [Chooser σ] (g : Generator) (x : Symbol) (budget : Int) : Draw σ Derivation :=
  g.expand (g.maxDepth + 1) x (effectiveBudget budget)

/-- Derive a sentence from the start symbol. -/
def derive [Chooser σ] (g : Generator) (budget : Int) : Draw σ Derivation :=
  g.deriveFrom g.grammar.startSymbol budget

end Generator

end TopDown
