-- The arguments of the program. They are read from left to right in two levels: the options
-- before the command, and those of the command itself. The first fault ends the reading, and so
-- does a wish for the version or for help.
import TopDown.CommandLine.Numeral

namespace TopDown.CommandLine

inductive Command where
  | display
  | parse (sentence : String) (json : Bool)
  | step (sentence : String)
  | generate (limit : Int) (seed : Option UInt64) (parse : Bool)
  deriving DecidableEq, Repr

/-- A command, and the file with the grammar that it is for. -/
structure Invocation where
  grammar : Option String
  command : Command
  deriving DecidableEq, Repr

/-- Why no command is carried out. -/
inductive Halt where
  | usage
  | help
  | version
  deriving DecidableEq, Repr

/-! ## Options -/

inductive Key where
  | grammar
  | limit
  | seed
  | json
  | parse
  | help
  | version
  deriving DecidableEq, Repr

namespace Key

def long : Key → String
  | grammar => "grammar"
  | limit => "limit"
  | seed => "seed"
  | json => "json"
  | parse => "parse"
  | help => "help"
  | version => "version"

def short? : Key → Option Char
  | grammar => some 'g'
  | limit => some 'l'
  | seed => some 's'
  | json => none
  | parse => some 'p'
  | help => some 'h'
  | version => some 'V'

def takesValue : Key → Bool
  | grammar | limit | seed => true
  | json | parse | help | version => false

/-- The next argument may be the value. One that starts like an option may not, unless a negative
number is asked for. -/
def admits (k : Key) (argument : String) : Bool :=
  match argument.toList with
  | '-' :: c :: cs => k == limit && (c :: cs).all Char.isDigit
  | _ => true

end Key

/-- A piece of the argument list. -/
inductive Item where
  | flag (k : Key)
  | setting (k : Key) (value : String)
  /-- A word that is no option, with the arguments after it. -/
  | word (w : String) (rest : List String)
  /-- From here on all arguments are words. -/
  | dashes
  /-- An option that is not known here, or not given in the right way. -/
  | fault
  deriving DecidableEq, Repr

/-- The items of a long option, without its dashes, and the key that waits for its value. -/
def longOption (keys : List Key) (name : List Char) (value : Option (List Char)) :
    List Item × Option Key :=
  match keys.find? (fun k => k.long.toList == name), value with
  | none, _ => ([.fault], none)
  | some k, some v =>
    if k.takesValue then ([.setting k (String.ofList v)], none) else ([.fault], none)
  | some k, none => if k.takesValue then ([], some k) else ([.flag k], none)

/-- The items of joined short options. What follows one that takes a value is its value, with or
without an equals sign between. -/
def shortOptions (keys : List Key) : List Char → List Item × Option Key
  | [] => ([], none)
  | c :: cs =>
    match keys.find? (fun k => k.short? == some c) with
    | none => ([.fault], none)
    | some k =>
      if k.takesValue then
        match cs with
        | [] => ([], some k)
        | '=' :: v => ([.setting k (String.ofList v)], none)
        | v => ([.setting k (String.ofList v)], none)
      else
        let (items, waiting) := shortOptions keys cs
        (.flag k :: items, waiting)

/-- The items of an argument list, where `keys` are the options known and `waiting` one that still
lacks its value. -/
def items (keys : List Key) : Option Key → List String → List Item
  | some _, [] => [.fault]
  | none, [] => []
  | some k, argument :: rest =>
    if k.admits argument then .setting k argument :: items keys none rest else [.fault]
  | none, argument :: rest =>
    match argument.toList with
    | ['-', '-'] => .dashes :: rest.map fun w => .word w []
    | '-' :: '-' :: body =>
      let name := body.takeWhile (· != '=')
      let value := match body.dropWhile (· != '=') with
        | [] => none
        | _ :: v => some v
      let (found, waiting) := longOption keys name value
      found ++ items keys waiting rest
    | '-' :: c :: cs =>
      let (found, waiting) := shortOptions keys (c :: cs)
      found ++ items keys waiting rest
    | _ => .word argument rest :: items keys none rest

/-! ## Settings -/

/-- What the options and words of one level have set. -/
structure Settings where
  grammar : Option String := none
  limit : Option Int := none
  seed : Option UInt64 := none
  json : Bool := false
  parse : Bool := false
  words : List String := []

namespace Settings

/-- Set an option that is not set yet. -/
def once (old : Option α) (new : Option α) : Except Halt (Option α) :=
  match old, new with
  | none, some x => .ok (some x)
  | _, _ => .error .usage

/-- Raise a flag that is not raised yet. -/
def raise (flag : Bool) : Except Halt Bool := if flag then .error .usage else .ok true

/-- A path is a text that is not empty. -/
def path? (s : String) : Option String := if s = "" then none else some s

/-- Take in one item, of which `arity` may be words. -/
def add (arity : Nat) (s : Settings) : Item → Except Halt Settings
  | .flag .help => .error .help
  | .flag .version => .error .version
  | .flag .json => do return { s with json := ← raise s.json }
  | .flag .parse => do return { s with parse := ← raise s.parse }
  | .flag _ => .error .usage
  | .setting .grammar v => do return { s with grammar := ← once s.grammar (path? v) }
  | .setting .limit v => do return { s with limit := ← once s.limit (signed? v) }
  | .setting .seed v => do return { s with seed := ← once s.seed (word? v) }
  | .setting _ _ => .error .usage
  | .word w _ =>
    if s.words.length < arity then .ok { s with words := s.words ++ [w] } else .error .usage
  | .dashes => .ok s
  | .fault => .error .usage

end Settings

/-! ## Commands -/

inductive Verb where
  | display
  | parse
  | step
  | generate
  deriving DecidableEq, Repr

namespace Verb

def ofName? : String → Option Verb
  | "show" => some display
  | "parse" => some parse
  | "step" => some step
  | "generate" => some generate
  | _ => none

/-- The options known after the command. -/
def keys : Verb → List Key
  | display => [.grammar, .help]
  | parse => [.grammar, .json, .help]
  | step => [.grammar, .help]
  | generate => [.grammar, .limit, .seed, .parse, .help]

/-- How many words the command takes. -/
def arity : Verb → Nat
  | display | generate => 0
  | parse | step => 1

/-- The command that the settings make up. -/
def command? (v : Verb) (s : Settings) : Option Command :=
  match v, s.words with
  | display, [] => some .display
  | parse, [sentence] => some (.parse sentence s.json)
  | step, [sentence] => some (.step sentence)
  | generate, [] => some (.generate (s.limit.getD 0) s.seed s.parse)
  | _, _ => none

end Verb

/-- Read the arguments after the command. A grammar named here counts before one named ahead of
the command. -/
def readCommand (v : Verb) (ahead : Settings) (arguments : List String) :
    Except Halt Invocation := do
  let s ← (items v.keys none arguments).foldlM (Settings.add v.arity) {}
  match v.command? s with
  | some command => return { grammar := s.grammar.or ahead.grammar, command }
  | none => throw .usage

/-- Help about a command, or about all of them. -/
def readHelp : List String → Halt
  | [] => .help
  | [name] => if name = "help" ∨ (Verb.ofName? name).isSome then .help else .usage
  | _ => .usage

/-- Read the options ahead of the command, then the command. -/
def readItems (ahead : Settings) : List Item → Except Halt Invocation
  | [] => .error .usage
  | .word "help" rest :: _ => .error (readHelp rest)
  | .word w rest :: _ =>
    match Verb.ofName? w with
    | some v => readCommand v ahead rest
    | none => .error .usage
  | .dashes :: _ => .error .usage
  | item :: more => do readItems (← ahead.add 0 item) more

/-- What the arguments ask for. -/
def readArguments (arguments : List String) : Except Halt Invocation :=
  readItems {} (items [.grammar, .help, .version] none arguments)

end TopDown.CommandLine
