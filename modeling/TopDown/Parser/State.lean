-- What a run of the parser is made of: a state with a stack and an input, the action that a
-- state takes, and the record that is kept of it.
import TopDown.Symbol
import TopDown.Table

namespace TopDown

inductive RejectReason where
  /-- The non-terminal on top of the stack has no table entry for the lookahead. -/
  | unexpectedInput
  /-- The top of the stack is neither a non-terminal nor the lookahead. -/
  | unexpectedTop
  deriving DecidableEq, Repr

inductive Status where
  | running
  | accepted
  | rejected (reason : RejectReason)
  deriving DecidableEq, Repr

namespace Status

def isFinished : Status → Bool
  | running => false
  | accepted | rejected _ => true

def reason? : Status → Option RejectReason
  | rejected r => some r
  | running | accepted => none

end Status

/-- What one step does. -/
inductive Action where
  /-- The top of the stack and the lookahead are the same symbol, and both go. -/
  | consume (x : Symbol)
  /-- An alternative takes the place of its non-terminal on the stack. -/
  | expand (nt : Nat) (lookahead : Symbol) (alternative : Nat)
  | reject (reason : RejectReason)
  deriving DecidableEq, Repr

/-- The table cell that an expansion used. -/
def Action.cell? : Action → Option Cell
  | expand nt lookahead _ => some (nt, lookahead)
  | consume _ | reject _ => none

structure State where
  /-- The top first. -/
  stack : List Symbol
  input : List Symbol
  /-- How much of the input is consumed. -/
  cursor : Nat
  steps : Nat
  status : Status
  deriving DecidableEq, Repr

namespace State

def top? (s : State) : Option Symbol := s.stack.head?

/-- The input from the cursor on. -/
def remaining (s : State) : List Symbol := s.input.drop s.cursor

/-- The next input symbol. Past the end of the input it is the end mark. -/
def lookahead (s : State) : Symbol := s.remaining.headD .endMark

def isFinished (s : State) : Bool := s.status.isFinished

end State

/-- A step that was taken, with the stack and the input before it. -/
structure Record where
  /-- The number of the step, from one. -/
  step : Nat
  stack : List Symbol
  remaining : List Symbol
  action : Action
  deriving DecidableEq, Repr

end TopDown
