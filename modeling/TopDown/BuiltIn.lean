-- The grammar that is there without a file.
import TopDown.Configuration.Basic

namespace TopDown.BuiltIn

open Json (Value)

/-- An array of one string for each character. -/
def letters (s : String) : Value := .array (s.toList.map fun c => .string c.toString)

/-- A rule, each alternative given by its characters. -/
def rule (name : String) (alternatives : List String) : String × Value :=
  (name, .array (alternatives.map letters))

def members (name : String) (ms : String) : String × Value := (name, letters ms)

def row (name : String) (cells : List (String × String)) : String × Value :=
  (name, .object (cells.map fun (lookahead, text) => (lookahead, .string text)))

def document : Document where
  name := "abcd"
  start := "S"
  closing := some "D"
  rules := [
    rule "S" ["aAa", "bBb", "cCc"],
    rule "A" ["aA", "cDB"],
    rule "B" ["bB", "cCD"],
    rule "C" ["Dc"],
    rule "D" ["dD", "ε"]]
  first := [
    members "S" "abc",
    members "A" "ac",
    members "B" "bc",
    members "C" "dc",
    members "D" "dε"]
  follow := [
    members "S" "$",
    members "A" "a",
    members "B" "ba",
    members "C" "cdba",
    members "D" "cba"]
  table := [
    row "S" [("a", "S → a A a"), ("b", "S → b B b"), ("c", "S → c C c")],
    row "A" [("a", "A → a A"), ("c", "A → c D B")],
    row "B" [("b", "B → b B"), ("c", "B → c C D")],
    row "C" [("c", "C → D c"), ("d", "C → D c")],
    row "D" [("a", "D → ε"), ("b", "D → ε"), ("c", "D → ε"), ("d", "D → d D")]]

/-- The built-in grammar, loaded. -/
def configuration : Except GrammarError Configuration := document.configuration

end TopDown.BuiltIn
