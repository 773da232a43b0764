-- The symbols of a grammar and the productions made of them.

namespace TopDown

/-- A grammar symbol. A terminal is one character; a non-terminal is the number of its name.
The markers are symbols of their own: the terminal `$` is not the end mark. -/
inductive Symbol where
  | terminal (c : Char)
  | nonTerminal (id : Nat)
  /-- Stands for nothing in a right-hand side: never stacked, never matched. -/
  | empty
  /-- The bottom of the stack and the end of the input. -/
  | endMark
  deriving DecidableEq, Repr

namespace Symbol

def isTerminal : Symbol → Bool
  | terminal _ => true
  | _ => false

def isNonTerminal : Symbol → Bool
  | nonTerminal _ => true
  | _ => false

def isEmpty : Symbol → Bool
  | empty => true
  | _ => false

def isEndMark : Symbol → Bool
  | endMark => true
  | _ => false

end Symbol

/-- One alternative of the non-terminal `lhs`. -/
structure Production where
  lhs : Nat
  rhs : List Symbol
  deriving DecidableEq, Repr

namespace Production

/-- The right-hand side is the empty marker alone. -/
def isEpsilon (p : Production) : Bool := decide (p.rhs = [.empty])

/-- `x` occurs in the right-hand side. -/
def mentions (p : Production) (x : Symbol) : Bool := decide (x ∈ p.rhs)

/-- What an expansion puts on the stack, the leftmost symbol on top: the right-hand side
without its empty markers. -/
def visible (p : Production) : List Symbol := p.rhs.filter fun x => !x.isEmpty

end Production

/-- One token for each character, and the end mark after the last. -/
def tokens (sentence : String) : List Symbol :=
  sentence.toList.map .terminal ++ [.endMark]

end TopDown
