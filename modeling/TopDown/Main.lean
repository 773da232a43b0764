-- The program: its arguments, files and streams around the pure command line.
import TopDown.CommandLine.Outcome

namespace TopDown.Program

open CommandLine

/-- What a file holds, or why it cannot be read. -/
def readFile (path : String) : IO Configuration.FileContent := do
  try
    return .ok (← IO.FS.readBinFile path)
  catch e =>
    match e with
    | .noFileOrDirectory .. => return .error .notFound
    | .inappropriateType .. => return .error .directory
    | other => return .error (.other (toString other))

/-- Words from the system's source of randomness, as one number. -/
def entropy : IO UInt64 := do
  let bytes ← IO.getRandomBytes 8
  return bytes.toList.foldl (fun n b => n * 256 + b.toUInt64) 0

/-- The bytes of one line with its line feed, or up to the end of the stream. -/
partial def readLine (stdin : IO.FS.Stream) (line : ByteArray) : IO ByteArray := do
  let byte ← stdin.read 1
  if byte.isEmpty then return line
  if byte.toList = [10] then return line ++ byte
  readLine stdin (line ++ byte)

/-- A walk that shows each step as soon as its line is read. -/
partial def walk (p : Parser) (s : State) : IO UInt32 := do
  let stdout ← IO.getStdout
  if s.isFinished then
    stdout.putStr (Walk.closing s)
    return 0
  stdout.putStr Walk.prompt
  stdout.flush
  let bytes ← readLine (← IO.getStdin) ByteArray.empty
  match Lines.ofBytes bytes.toList with
  | [] =>
    stdout.putStr (Walk.closing s)
    return 0
  | none :: _ =>
    (← IO.getStderr).putStr (Outcome.failure "" notText).stderr
    return 1
  | some line :: _ =>
    if Walk.stops line then
      stdout.putStr (Walk.closing s)
      return 0
    let (next, shown) := Walk.turn p s
    stdout.putStr shown
    walk p next

def finish (o : Outcome) : IO UInt32 := do
  (← IO.getStdout).putStr o.stdout
  (← IO.getStderr).putStr o.stderr
  return o.code.toUInt32

def run (arguments : List String) : IO UInt32 := do
  match readArguments arguments with
  | .error _ => finish (respond ⟨fun _ => .error .notFound, [], 0⟩ arguments)
  | .ok i =>
    let content ← match i.grammar with
      | some path => readFile path
      | none => pure (.error .notFound)
    let around : Surroundings := ⟨fun _ => content, [], ← entropy⟩
    match i.command, load around i.grammar with
    | .step sentence, .ok c =>
      let p := Parser.ofConfiguration c
      (← IO.getStdout).putStr (Walk.opening p)
      walk p (p.start (Text.trim sentence))
    | _, _ => finish (invoke around i)

end TopDown.Program

def main (arguments : List String) : IO UInt32 := TopDown.Program.run arguments
