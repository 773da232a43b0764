-- The built-in grammar as it is loaded, with its table and its FIRST and FOLLOW lists in full. The
-- lists are closed under the rules and the table covers them, so the table is predictive.
import TopDown.BuiltIn
import TopDown.Proofs.Loading
import TopDown.Proofs.Lookahead

namespace TopDown.BuiltIn

/-- `S → a A a | b B b | c C c`, `A → a A | c D B`, `B → b B | c C D`, `C → D c` and `D → d D | ε`,
with the non-terminals numbered in this order. -/
def grammar : Grammar where
  name := "abcd"
  start := 0
  names := ["S", "A", "B", "C", "D"]
  rules := [
    [⟨0, [.terminal 'a', .nonTerminal 1, .terminal 'a']⟩,
      ⟨0, [.terminal 'b', .nonTerminal 2, .terminal 'b']⟩,
      ⟨0, [.terminal 'c', .nonTerminal 3, .terminal 'c']⟩],
    [⟨1, [.terminal 'a', .nonTerminal 1]⟩, ⟨1, [.terminal 'c', .nonTerminal 4, .nonTerminal 2]⟩],
    [⟨2, [.terminal 'b', .nonTerminal 2]⟩, ⟨2, [.terminal 'c', .nonTerminal 3, .nonTerminal 4]⟩],
    [⟨3, [.nonTerminal 4, .terminal 'c']⟩],
    [⟨4, [.terminal 'd', .nonTerminal 4]⟩, ⟨4, [.empty]⟩]]

def parsingTable : ParsingTable where
  entries := [
    ((0, .terminal 'a'), 0), ((0, .terminal 'b'), 1), ((0, .terminal 'c'), 2),
    ((1, .terminal 'a'), 0), ((1, .terminal 'c'), 1),
    ((2, .terminal 'b'), 0), ((2, .terminal 'c'), 1),
    ((3, .terminal 'c'), 0), ((3, .terminal 'd'), 0),
    ((4, .terminal 'a'), 1), ((4, .terminal 'b'), 1), ((4, .terminal 'c'), 1),
    ((4, .terminal 'd'), 0)]

def sets : SymbolSets where
  firstRows := [
    [.terminal 'a', .terminal 'b', .terminal 'c'],
    [.terminal 'a', .terminal 'c'],
    [.terminal 'b', .terminal 'c'],
    [.terminal 'd', .terminal 'c'],
    [.terminal 'd', .empty]]
  followRows := [
    [.endMark],
    [.terminal 'a'],
    [.terminal 'b', .terminal 'a'],
    [.terminal 'c', .terminal 'd', .terminal 'b', .terminal 'a'],
    [.terminal 'c', .terminal 'b', .terminal 'a']]

def loaded : Configuration := ⟨grammar, parsingTable, sets, some 4⟩

/-- The document is read without an error, and this is what it describes. -/
theorem configuration_eq : configuration = .ok loaded := by rfl

theorem distinct : document.Distinct := ⟨by decide, by decide, by decide, by decide⟩

theorem wellFormed : loaded.WellFormed :=
  (Document.wellFormed_of_configuration distinct configuration_eq).1

theorem noEndMark : grammar.NoEndMark := wellFormed.grammar.noEndMark

theorem sets_closed : sets.Closed grammar := ⟨by decide, by decide, by decide⟩

theorem sets_covered : sets.Covered grammar parsingTable := by decide

theorem predictive : Predictive grammar parsingTable := sets_closed.predictive sets_covered

end TopDown.BuiltIn
