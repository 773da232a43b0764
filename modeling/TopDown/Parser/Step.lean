-- The table-driven parser, one step at a time. The state alone decides the action, and the
-- action alone says what becomes of the stack, the cursor and the status.
import TopDown.Parser.State

namespace TopDown

structure Parser where
  grammar : Grammar
  table : ParsingTable

namespace Parser

/-- The start symbol on the end mark, and all of the sentence ahead. -/
def start (p : Parser) (sentence : String) : State where
  stack := [p.grammar.startSymbol, .endMark]
  input := tokens sentence
  cursor := 0
  steps := 0
  status := .running

/-- The alternative that the table gives, if the grammar has it. -/
def choice? (p : Parser) (nt : Nat) (lookahead : Symbol) : Option Nat := do
  let alternative ← p.table.lookup nt lookahead
  if (p.grammar.production? nt alternative).isSome then some alternative else none

/-- What the top of the stack and the lookahead call for. -/
def action (p : Parser) (s : State) : Action :=
  match s.top? with
  | some (.nonTerminal nt) =>
    match p.choice? nt s.lookahead with
    | some alternative => .expand nt s.lookahead alternative
    | none => .reject .unexpectedInput
  | some .empty | none => .reject .unexpectedTop
  | some x => if x = s.lookahead then .consume x else .reject .unexpectedTop

/-- What an expansion puts in place of the non-terminal. -/
def expansion (p : Parser) (nt alternative : Nat) : List Symbol :=
  ((p.grammar.production? nt alternative).map Production.visible).getD []

/-- The state after an action. Consuming the end mark accepts. -/
def perform (p : Parser) (s : State) : Action → State
  | .consume x =>
    { s with
      stack := s.stack.tail
      cursor := s.cursor + 1
      status := if x = .endMark then .accepted else s.status }
  | .expand nt _ alternative => { s with stack := p.expansion nt alternative ++ s.stack.tail }
  | .reject reason => { s with status := .rejected reason }

/-- One step, with its record. A finished state stays as it is and leaves no record. -/
def step (p : Parser) (s : State) : State × Option Record :=
  if s.isFinished then (s, none)
  else
    let a := p.action s
    ({ p.perform s a with steps := s.steps + 1 },
      some ⟨s.steps + 1, s.stack, s.remaining, a⟩)

end Parser

end TopDown
