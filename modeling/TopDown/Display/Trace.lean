-- Runs and derivations as text.
import TopDown.Generator.Derive
import TopDown.Grid
import TopDown.Parser.Run

namespace TopDown

def RejectReason.message : RejectReason → String
  | unexpectedInput => "unexpected input symbol"
  | unexpectedTop => "unexpected stack top"

def Status.message : Status → String
  | running => "running"
  | accepted => "accepted"
  | rejected reason => "rejected: " ++ reason.message

/-- An action in words: the production that an expansion applies, written out. -/
def Action.describe (g : Grammar) : Action → String
  | consume x => "consume " ++ g.spell x
  | expand nt _ alternative => ((g.production? nt alternative).map g.write).getD "?"
  | reject reason => "error: " ++ reason.message

/-! ## Runs -/

namespace Record

/-- The stack from the bottom up, the top at the right. -/
def stackText (g : Grammar) (r : Record) : String := g.spellAll r.stack.reverse

def inputText (g : Grammar) (r : Record) : String := g.spellAll r.remaining

/-- Stack, input and action. -/
def row (g : Grammar) (r : Record) : List String :=
  [r.stackText g, r.inputText g, r.action.describe g]

end Record

def traceRows (g : Grammar) (trace : List Record) : List (List String) :=
  ["Stack", "Input", "Action"] :: trace.map (Record.row g)

def traceText (g : Grammar) (trace : List Record) : String := Grid.render (traceRows g trace)

/-- The verdict in words. Anything short of acceptance is a rejection. -/
def verdictLine (status : Status) (steps : Nat) : String :=
  let outcome := if status = .accepted then "accepted" else "rejected"
  "Sentence " ++ outcome ++ " in " ++ toString steps ++ " iterations."

def Report.verdict (r : Report) : String := verdictLine r.status r.steps

/-! ## Derivations -/

/-- The texts of the applied productions in one line. -/
def derivationLine (trace : List String) : String :=
  "Production sequence: " ++ if trace.isEmpty then "(none)" else " | ".intercalate trace

end TopDown
