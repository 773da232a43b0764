-- Why a grammar cannot be loaded, cause by cause, with the words for each.
import TopDown.Json.Fault
import TopDown.Text.Quoted

namespace TopDown

namespace Json

/-! ## A document of the wrong kind -/

def Number.text : Number → String
  | .whole n => toString n
  | .binary bits => Decimal.ofBits bits

def Found.message : Found → String
  | .null => "null"
  | .bool b => "boolean `" ++ toString b ++ "`"
  | .number (.whole n) => "integer `" ++ (Number.whole n).text ++ "`"
  | .number (.binary bits) => "floating point `" ++ (Number.binary bits).text ++ "`"
  | .string s => "string " ++ Text.quoted s
  | .array => "sequence"
  | .object => "map"

def Wanted.message : Wanted → String
  | .text => "a string"
  | .map => "a map"
  | .document => "struct GrammarJson"

def Mismatch.message : Mismatch → String
  | .wrongKind found wanted =>
    "invalid type: " ++ found.message ++ ", expected " ++ wanted.message
  | .missingField name => "missing field `" ++ name ++ "`"
  | .repeatedField name => "duplicate field `" ++ name ++ "`"
  | .tooShort length =>
    "invalid length " ++ toString length ++ ", expected " ++ Wanted.document.message ++
      " with 7 elements"

def Place.message (p : Place) : String :=
  " at line " ++ toString p.line ++ " column " ++ toString p.column

def Fault.message : Fault → String
  | .unfinished => "the text ends too early"
  | .malformed => "the text is not well formed"
  | .mismatch what place => what.message ++ place.message

end Json

/-! ## A file that is not text -/

inductive FileFault where
  | notFound
  | directory
  | notText
  /-- Any other fault of the file system, in its words. -/
  | other (text : String)
  deriving DecidableEq, Repr

def FileFault.message : FileFault → String
  | notFound => "No such file or directory (os error 2)"
  | directory => "Is a directory (os error 21)"
  | notText => "stream did not contain valid UTF-8"
  | other text => text

/-! ## A document that is no grammar -/

/-- A part of the document that has the wrong shape. -/
inductive Misshape where
  | alternatives
  | production
  | symbol
  | symbolSet
  | tableRow (name : String)
  | tableEntry (name : String)
  deriving DecidableEq, Repr

def Misshape.message : Misshape → String
  | alternatives => "Rules must be an array"
  | production => "Production must be an array"
  | symbol => "Symbol must be a string"
  | symbolSet => "Symbol set must be an array"
  | tableRow name => "Table row '" ++ name ++ "' must be an object"
  | tableEntry name => "Table entry of '" ++ name ++ "' must be a string"

inductive GrammarError where
  | unreadable (fault : FileFault)
  | json (fault : Json.Fault)
  | unknownStart (name : String)
  | invalidTerminal (spelling : String)
  | unknownNonTerminal (name : String)
  /-- A non-terminal of the rules has no alternatives. -/
  | emptyRule (name : String)
  /-- What is given as an alternative of the non-terminal is none. -/
  | foreignProduction (nonTerminal production : String)
  | invalidLookahead (spelling : String)
  | malformed (part : Misshape)
  deriving DecidableEq, Repr

def GrammarError.message : GrammarError → String
  | unreadable fault => "failed to read grammar file: " ++ fault.message
  | json fault => "failed to parse JSON: " ++ fault.message
  | unknownStart name => "start symbol '" ++ name ++ "' has no rules"
  | invalidTerminal spelling => "terminal '" ++ spelling ++ "' must be a single character"
  | unknownNonTerminal name => "unknown non-terminal '" ++ name ++ "'"
  | emptyRule name => "non-terminal '" ++ name ++ "' has no productions"
  | foreignProduction nonTerminal production =>
    "production '" ++ production ++ "' is not an alternative of '" ++ nonTerminal ++ "'"
  | invalidLookahead spelling => "'" ++ spelling ++ "' is not a valid lookahead"
  | malformed part => part.message

end TopDown
