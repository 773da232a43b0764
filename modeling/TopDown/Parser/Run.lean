-- Running the parser to its verdict. A run need not end, so it is bounded by a number of steps
-- that no run which ends goes beyond.
import TopDown.Configuration.Basic
import TopDown.Parser.Step

namespace TopDown

structure Report where
  status : Status
  steps : Nat
  /-- The records of the steps, in order. -/
  trace : List Record
  deriving DecidableEq, Repr

def Report.isAccepted (r : Report) : Bool := decide (r.status = .accepted)

namespace Parser

def ofConfiguration (c : Configuration) : Parser := ⟨c.grammar, c.table⟩

/-- There is a verdict, or nothing left on the stack. -/
def isDone (s : State) : Bool := s.isFinished || s.stack.isEmpty

/-- Step until the run is done, `fuel` times at most: the last state and the records. -/
def runFrom (p : Parser) : Nat → State → Option (State × List Record)
  | fuel, s =>
    if isDone s then some (s, [])
    else
      match fuel with
      | 0 => none
      | fuel + 1 =>
        let (next, record) := p.step s
        (p.runFrom fuel next).map fun (last, records) => (last, record.toList ++ records)

/-- The report of a run of at most `fuel` steps. -/
def runWithin (p : Parser) (fuel : Nat) (sentence : String) : Option Report :=
  (p.runFrom fuel (p.start sentence)).map fun (last, records) =>
    ⟨last.status, last.steps, records⟩

/-- The length of the longest right-hand side. -/
def longestRhs (g : Grammar) : Nat :=
  (g.allProductions.map fun p => p.rhs.length).foldl max 0

/-- How many expansions a stacked symbol costs at most between two consumed symbols, where
right-hand sides have the length `m` and `n` non-terminals can come up in it. -/
def symbolCost (m : Nat) : Nat → Nat
  | 0 => 1
  | n + 1 => (m + 1) * symbolCost m n

/-- More steps than a run that ends can take on `length` characters. Between two consumed symbols
no non-terminal is expanded inside itself, else the run goes on for ever; so every level of the
expansion of a stacked symbol has one non-terminal less to come, and leaves at most the length of a
right-hand side on the stack. -/
def stepLimit (g : Grammar) (length : Nat) : Nat :=
  let n := g.rules.length
  let m := longestRhs g
  (length + 2) * (2 + (length + 2) * n * m) * symbolCost m (n + 1)

/-- Run to the verdict. None for a run that never ends. -/
def run (p : Parser) (sentence : String) : Option Report :=
  p.runWithin (stepLimit p.grammar sentence.length) sentence

/-- The sentence is accepted. -/
def recognizes (p : Parser) (sentence : String) : Bool :=
  (p.run sentence).any Report.isAccepted

end Parser

end TopDown
