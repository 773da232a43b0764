-- A run as a value of the JSON data format.
import TopDown.Display.Trace
import TopDown.Json.Write

namespace TopDown

open Json (Value)

/-- One step of the trace; the table cell is there for expansions alone. -/
def Record.value (g : Grammar) (r : Record) : Value :=
  .object ([
    ("step", .ofNat r.step),
    ("stack", .string (r.stackText g)),
    ("input", .string (r.inputText g)),
    ("action", .string (r.action.describe g))] ++
    (r.action.cell?.map fun (nt, lookahead) =>
      ("table_cell", Value.array [.string (g.nameOf nt), .string (g.spell lookahead)])).toList)

def Report.value (g : Grammar) (sentence : String) (r : Report) : Value :=
  .object [
    ("sentence", .string sentence),
    ("accepted", .bool r.isAccepted),
    ("status", .string r.status.message),
    ("steps", .ofNat r.steps),
    ("trace", .array (r.trace.map (Record.value g)))]

/-- The text of a run as a document. -/
def Report.json (g : Grammar) (sentence : String) (r : Report) : String :=
  (r.value g sentence).write 0

end TopDown
