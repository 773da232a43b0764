-- The work of a run grows with the length of the sentence: sentences of the built-in grammar for
-- growing budgets, each with the number of steps that the parser takes on it.
import TopDown.Generator.Derive
import TopDown.Parser.Run
import TopDown.Random.Seeded

namespace TopDown.Benchmark

def budgets : List Int := [1, 5, 10, 20, 50, 100, 250, 500, 1000, 2500]

def sentencesPerBudget : Nat := 3

def seed : UInt64 := 42

def maxDepth : Nat := 16384

/-- One sentence measured. -/
structure Sample where
  budget : Int
  length : Nat
  steps : Nat
  accepted : Bool
  deriving DecidableEq, Repr

/-- A sentence measured, or why there is none. -/
inductive Entry where
  | sample (s : Sample)
  /-- The sentence with this number, counted from one, could not be generated. -/
  | skipped (number : Nat) (error : GenerationError)
  deriving DecidableEq, Repr

def Sample.columns (s : Sample) : List String :=
  [toString s.budget, toString s.length, toString s.steps, toString s.accepted]

def columnNames : List String := ["budget", "sentence_length", "steps", "accepted"]

def Entry.row? : Entry → Option (List String)
  | sample s => some s.columns
  | skipped _ _ => none

def Entry.notice? : Entry → Option String
  | sample _ => none
  | skipped number error => some ("  [SKIP] Sentence #" ++ toString number ++ ": " ++ error.message)

/-- Generate one sentence and run the parser on it. -/
def measure (c : Configuration) (budget : Int) (number : Nat) (source : Source) :
    List Entry × Source :=
  let generator := { Generator.ofConfiguration c with maxDepth }
  match generator.derive budget source with
  | (.error e, source) => ([.skipped number e], source)
  | (.ok d, source) =>
    let report := (Parser.ofConfiguration c).run d.sentence
    (report.toList.map fun r => .sample ⟨budget, d.output.length, r.steps, r.isAccepted⟩, source)

/-- The plan: every budget as often as asked for. -/
def plan : List (Int × Nat) :=
  budgets.flatMap fun b => (List.range sentencesPerBudget).map fun i => (b, i + 1)

/-- All sentences are drawn from one stream. -/
def survey (c : Configuration) : List Entry :=
  (plan.foldl (fun (entries, source) (budget, number) =>
    let (more, source) := measure c budget number source
    (entries ++ more, source)) ([], Source.ofStream (Seeded.stream seed))).1

/-- The rows of the survey under their names. -/
def table (c : Configuration) : List (List String) := columnNames :: (survey c).filterMap Entry.row?

/-- The notices of the survey, one a line. -/
def notices (c : Configuration) : String :=
  String.join (((survey c).filterMap Entry.notice?).map fun n => n ++ "\n")

end TopDown.Benchmark
