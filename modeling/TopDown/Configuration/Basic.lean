-- A grammar with its table and its FIRST and FOLLOW lists, and the checks by which a document
-- becomes one. The checks run in a fixed order, and the first that fails is reported.
import TopDown.Document.Basic
import TopDown.Sets
import TopDown.Spelling
import TopDown.Table

namespace TopDown

open Json (Value)

structure Configuration where
  grammar : Grammar
  table : ParsingTable
  sets : SymbolSets
  /-- The non-terminal that the generator steers to when its budget runs out. -/
  closing : Option Nat
  deriving DecidableEq, Repr

/-! ## Spelled symbols -/

/-- The character that a text of one character holds. -/
def singleChar? (s : String) : Option Char :=
  match s.toList with
  | [c] => some c
  | _ => none

namespace Grammar

/-- The number of a name that must be known. -/
def requireId (g : Grammar) (name : String) : Except GrammarError Nat :=
  match g.idOf? name with
  | some id => .ok id
  | none => .error (.unknownNonTerminal name)

/-- A symbol of a right-hand side: the name of a non-terminal, the empty marker, or any other
single character. -/
def readSymbol (g : Grammar) (s : String) : Except GrammarError Symbol :=
  match g.idOf? s with
  | some id => .ok (.nonTerminal id)
  | none =>
    if s = emptySpelling then .ok .empty
    else
      match singleChar? s with
      | some c => .ok (.terminal c)
      | none => .error (.invalidTerminal s)

end Grammar

/-- A lookahead: the end mark, or any other single character. -/
def readLookahead (s : String) : Except GrammarError Symbol :=
  if s = endSpelling then .ok .endMark
  else
    match singleChar? s with
    | some c => .ok (.terminal c)
    | none => .error (.invalidLookahead s)

/-- A member of a FIRST or FOLLOW list: the empty marker or a lookahead. -/
def readMember (s : String) : Except GrammarError Symbol :=
  if s = emptySpelling then .ok .empty else readLookahead s

/-! ## Parts of a document -/

namespace Document

/-- The value as `read` sees it, refused as `part` if it sees nothing. -/
def require (part : Misshape) (read : Value → Option α) (v : Value) : Except GrammarError α :=
  match read v with
  | some x => .ok x
  | none => .error (.malformed part)

/-- The spellings of one alternative. -/
def readProduction (v : Value) : Except GrammarError (List String) := do
  (← require .production Value.items? v).mapM (require .symbol Value.string?)

/-- The spellings of the alternatives of one non-terminal. -/
def readAlternatives (v : Value) : Except GrammarError (List (List String)) := do
  (← require .alternatives Value.items? v).mapM readProduction

def readSet (v : Value) : Except GrammarError (List Symbol) := do
  (← require .symbolSet Value.items? v).mapM fun m => do
    readMember (← require .symbol Value.string? m)

/-- Append the alternatives of one non-terminal. -/
def addRule (g : Grammar) (rule : String × Value) : Except GrammarError Grammar := do
  let lhs ← g.requireId rule.1
  let alternatives ← readAlternatives rule.2
  if alternatives.isEmpty then throw (.emptyRule rule.1)
  alternatives.foldlM (fun g spellings => do
    return (g.addProduction lhs (← spellings.mapM g.readSymbol)).2) g

/-- Enter one cell of the row of `name`, whose number is `nt`. -/
def addCell (g : Grammar) (name : String) (nt : Nat) (t : ParsingTable)
    (cell : String × Value) : Except GrammarError ParsingTable := do
  let lookahead ← readLookahead cell.1
  let text ← require (.tableEntry name) Value.string? cell.2
  match g.alternativeOf? nt text with
  | some alternative => t.insert g nt lookahead alternative
  | none => throw (.foreignProduction name text)

def addRow (g : Grammar) (t : ParsingTable) (row : String × Value) :
    Except GrammarError ParsingTable := do
  let nt ← g.requireId row.1
  let cells ← require (.tableRow row.1) Value.members? row.2
  cells.foldlM (addCell g row.1 nt) t

/-- Every rule key as a non-terminal, numbered in order. -/
def declared (d : Document) : Grammar :=
  d.rules.foldl (fun g rule => (g.addNonTerminal rule.1).2) (Grammar.new d.name)

def readGrammar (d : Document) : Except GrammarError Grammar := do
  let g := d.declared
  match g.idOf? d.start with
  | none => throw (.unknownStart d.start)
  | some start => d.rules.foldlM addRule { g with start }

def readTable (d : Document) (g : Grammar) : Except GrammarError ParsingTable :=
  d.table.foldlM (addRow g) .empty

def readSets (d : Document) (g : Grammar) : Except GrammarError SymbolSets := do
  let s ← d.first.foldlM (fun s entry => do
    let nt ← g.requireId entry.1
    return s.setFirst nt (← readSet entry.2)) (SymbolSets.new g.names.length)
  d.follow.foldlM (fun s entry => do
    let nt ← g.requireId entry.1
    return s.setFollow nt (← readSet entry.2)) s

/-- The configuration that a document describes. -/
def configuration (d : Document) : Except GrammarError Configuration := do
  let grammar ← d.readGrammar
  let closing ← d.closing.mapM grammar.requireId
  let table ← d.readTable grammar
  let sets ← d.readSets grammar
  return { grammar, table, sets, closing }

end Document

end TopDown
