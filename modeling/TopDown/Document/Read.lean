-- Reading a grammar document from text. The text is read once, from left to right, and the first
-- problem met is the one reported; a field that is missing is noticed at the end.
import TopDown.Document.Basic
import TopDown.Json.Read

namespace TopDown.Document

open Json (Cursor Fault Reader Value)
open Json.Reader

/-- The fields read so far. -/
structure Draft where
  name : Option String := none
  start : Option String := none
  closing : Option (Option String) := none
  rules : Option (List (String × Value)) := none
  first : Option (List (String × Value)) := none
  follow : Option (List (String × Value)) := none
  table : Option (List (String × Value)) := none

namespace Draft

def has (d : Draft) : Field → Bool
  | .name => d.name.isSome
  | .start => d.start.isSome
  | .closing => d.closing.isSome
  | .rules => d.rules.isSome
  | .first => d.first.isSome
  | .follow => d.follow.isSome
  | .table => d.table.isSome

/-- How many containers a value of a map may open: 127 with the document and the map itself. -/
def levels : Nat := 125

/-- Read the value of a field. -/
def read (d : Draft) : Field → Reader Draft
  | .name => do return { d with name := some (← text) }
  | .start => do return { d with start := some (← text) }
  | .closing => do return { d with closing := some (← textOrNull) }
  | .rules => do return { d with rules := some (← map levels) }
  | .first => do return { d with first := some (← map levels) }
  | .follow => do return { d with follow := some (← map levels) }
  | .table => do return { d with table := some (← map levels) }

/-- The document, if every required field is there. -/
def finish? (d : Draft) : Option Document := do
  return {
    name := ← d.name
    start := ← d.start
    closing := d.closing.join
    rules := ← d.rules
    first := d.first.getD []
    follow := d.follow.getD []
    table := ← d.table }

/-- The first required field that is not there. -/
def firstMissing? (d : Draft) : Option Field :=
  Field.all.find? fun f => f.isRequired && !d.has f

end Draft

/-- Refuse an object. The place named is after the closing brace, if that comes next. -/
def refuse (what : Json.Mismatch) : Reader α := do
  if (← peekSolid) = some '}' then skip
  mismatch what

/-- The fields of a document written as an object whose opening brace is read. -/
def ofObject : Reader Document :=
  loop (fun (isFirst, draft) => do
    match ← nextKey isFirst with
    | none =>
      match draft.finish? with
      | some d => skip; return .inr d
      | none => refuse (.missingField (draft.firstMissing?.elim "" Field.key))
    | some key =>
      match Field.ofKey? key with
      | none =>
        colon
        skipValue
        return .inl (false, draft)
      | some f =>
        if draft.has f then refuse (.repeatedField key)
        colon
        return .inl (false, ← draft.read f))
    (true, ({} : Draft))

/-- The fields from the one with number `i` on, of a document written as an array. -/
def ofElements (i : Nat) (draft : Draft) : List Field → Reader Document
  | [] => do
    match ← peekSolid, draft.finish? with
    | none, _ => fail .unfinished
    | some ']', some d => skip; return d
    | some _, _ => fail .malformed
  | f :: fs => do
    if ← nextElement (i == 0) then ofElements (i + 1) (← draft.read f) fs
    else if f.isRequired then
      skip
      mismatch (.tooShort i)
    else ofElements (i + 1) draft fs

def read : Reader Document := do
  let d ← match ← peekSolid with
    | none => fail .unfinished
    | some '{' => skip; ofObject
    | some '[' => skip; ofElements 0 {} Field.all
    | some _ => wrongKind .document
  match ← peekSolid with
  | none => return d
  | some _ => fail .malformed

/-- The document that a text holds, with nothing but blanks around it. -/
def ofText (s : String) : Except Fault Document := do
  let (d, _) ← read.run (Cursor.start s.toList)
  return d

end TopDown.Document
