-- What the program prints and how it ends, for given arguments, files and input.
import TopDown.BuiltIn
import TopDown.CommandLine.Arguments
import TopDown.CommandLine.Lines
import TopDown.CommandLine.Walk
import TopDown.Configuration.Load
import TopDown.Display.Summary
import TopDown.Random.Seeded

namespace TopDown.CommandLine

structure Outcome where
  code : Nat
  stdout : String
  stderr : String
  deriving DecidableEq, Repr

namespace Outcome

def success (stdout : String) : Outcome := ⟨0, stdout, ""⟩

def failure (stdout message : String) : Outcome := ⟨1, stdout, "Error: " ++ message ++ "\n"⟩

/-- Put text ahead of what is printed. -/
def after (text : String) (o : Outcome) : Outcome := { o with stdout := text ++ o.stdout }

end Outcome

def versionText : String := "ll1-trace 0.1.0\n"

def helpText : String :=
  "Table-driven LL(1) parser with step-by-step tracing\n\n" ++
  "Usage: ll1-trace [-g GRAMMAR] COMMAND\n\n" ++
  "Commands:\n" ++
  "  show                                  Print the grammar, its sets and its table\n" ++
  "  parse [--json] SENTENCE               Parse a sentence and print the trace\n" ++
  "  step SENTENCE                         Parse a sentence one step per line of input\n" ++
  "  generate [-l LIMIT] [-s SEED] [-p]    Generate a random sentence\n"

/-! ## Commands -/

/-- All there is to see of a configuration. -/
def display (c : Configuration) : Outcome :=
  .success <|
    "Grammar: " ++ c.grammar.name ++ "\n" ++
    String.ofList (List.replicate 60 '=') ++ "\n" ++
    c.grammar.listing ++ "\n\n" ++
    c.sets.text c.grammar ++ "\n\n" ++
    c.table.text c.grammar none ++ "\n"

/-- The trace and the verdict, or the run as a document. A rejected sentence is a failure. -/
def parse (c : Configuration) (sentence : String) (json : Bool) : Outcome :=
  match (Parser.ofConfiguration c).run sentence with
  | none => .failure "" "The run does not end"
  | some report =>
    let mark := if report.isAccepted then "✓" else "✗"
    let text :=
      if json then report.json c.grammar sentence ++ "\n"
      else
        traceText c.grammar report.trace ++ "\n\n[" ++ mark ++ "] " ++ report.verdict ++ "\n"
    ⟨if report.isAccepted then 0 else 1, text, ""⟩

def notText : String := "Failed to read stdin: " ++ FileFault.notText.message

def step (c : Configuration) (sentence : String) (lines : List (Option String)) : Outcome :=
  let p := Parser.ofConfiguration c
  let (shown, last) := Walk.onward p (p.start sentence) lines
  let text := Walk.opening p ++ shown
  match last with
  | some s => .success (text ++ Walk.closing s)
  | none => .failure text notText

def generate (c : Configuration) (limit : Int) (seed : UInt64) (parsing : Bool) : Outcome :=
  match ((Generator.ofConfiguration c).derive limit (Source.ofStream (Seeded.stream seed))).1 with
  | .error e => .failure "" ("Generation failed: " ++ e.message)
  | .ok d =>
    let text := "Sentence: " ++ d.sentence ++ "\n" ++ derivationLine (d.trace c.grammar) ++ "\n"
    if parsing then (parse c d.sentence false).after (text ++ "\n") else .success text

/-! ## The program -/

/-- What the program finds around it. -/
structure Surroundings where
  file : String → Configuration.FileContent
  stdin : List UInt8
  /-- The seed where none is given. -/
  entropy : UInt64

/-- The configuration at a path, or the built-in one. -/
def load (around : Surroundings) : Option String → Except String Configuration
  | some path =>
    (Configuration.ofFile (around.file path)).mapError fun e =>
      "Failed to load grammar '" ++ path ++ "': " ++ e.message
  | none =>
    BuiltIn.configuration.mapError fun e => "Failed to load built-in grammar: " ++ e.message

/-- Carry out a command. Blanks around a given sentence do not count. -/
def carryOut (c : Configuration) (around : Surroundings) : Command → Outcome
  | .display => display c
  | .parse sentence json => parse c (Text.trim sentence) json
  | .step sentence => step c (Text.trim sentence) (Lines.ofBytes around.stdin)
  | .generate limit seed parsing => generate c limit (seed.getD around.entropy) parsing

def invoke (around : Surroundings) (i : Invocation) : Outcome :=
  match load around i.grammar with
  | .error message => .failure "" message
  | .ok c => carryOut c around i.command

/-- What the program does for its arguments. -/
def respond (around : Surroundings) (arguments : List String) : Outcome :=
  match readArguments arguments with
  | .ok i => invoke around i
  | .error .version => .success versionText
  | .error .help => .success helpText
  | .error .usage => ⟨2, "", helpText⟩

/-! ## Laws -/

/-- Where the arguments are understood and the grammar loads, the command is carried out. -/
theorem respond_eq_carryOut {around : Surroundings} {arguments : List String} {i : Invocation}
    {c : Configuration} (hi : readArguments arguments = .ok i)
    (hc : load around i.grammar = .ok c) :
    respond around arguments = carryOut c around i.command := by
  simp only [respond, hi, invoke, hc]

end TopDown.CommandLine
