-- A grammar document as read: its fields, with the maps as ordered lists of distinct keys whose
-- values are not looked at yet.
import TopDown.Json.Value

namespace TopDown

open Json (Value)

structure Document where
  name : String
  /-- The name of the start symbol. -/
  start : String
  /-- The name of the non-terminal that a long sentence is to be closed by. -/
  closing : Option String
  /-- Under each non-terminal the array of its alternatives. -/
  rules : List (String × Value)
  first : List (String × Value)
  follow : List (String × Value)
  /-- Under each non-terminal its row: an alternative under each lookahead. -/
  table : List (String × Value)
  deriving Repr

namespace Document

inductive Field where
  | name
  | start
  | closing
  | rules
  | first
  | follow
  | table
  deriving DecidableEq, Repr

namespace Field

/-- The fields in the order of a document written as an array. -/
def all : List Field := [name, start, closing, rules, first, follow, table]

def key : Field → String
  | name => "name"
  | start => "start"
  | closing => "closing"
  | rules => "rules"
  | first => "first"
  | follow => "follow"
  | table => "table"

def ofKey? (key : String) : Option Field := all.find? fun f => f.key == key

/-- A document without this field is refused. -/
def isRequired : Field → Bool
  | name | start | rules | table => true
  | closing | first | follow => false

end Field

end Document

end TopDown
