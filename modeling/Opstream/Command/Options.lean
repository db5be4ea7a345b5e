namespace Opstream.Command

structure Options where
  input : Option String
  binary : Bool
  hex : Bool
  table : Bool
  verbosity : Nat
  deriving DecidableEq

def Options.default : Options := ⟨none, false, false, false, 0⟩

inductive UsageError
  | unknownOption (text : String)
  | repeatedOption (text : String)
  | extraArgument (text : String)
  | emptyArgument
  deriving DecidableEq

def UsageError.message : UsageError → String
  | unknownOption text => s!"unknown option '{text}'"
  | repeatedOption text => s!"option '{text}' cannot be used more than once"
  | extraArgument text => s!"unexpected argument '{text}'"
  | emptyArgument => "the input file has no name"

inductive Halt
  | help
  | version
  | usage (error : UsageError)
  deriving DecidableEq

inductive Flag
  | binary | hex | table | verbose | help | version
  deriving DecidableEq

namespace Flag

def all : List Flag := [binary, hex, table, verbose, help, version]

def long : Flag → String
  | binary => "--binary"
  | hex => "--hex"
  | table => "--table"
  | verbose => "--verbose"
  | help => "--help"
  | version => "--version"

def short? : Flag → Option Char
  | binary => some 'b'
  | hex => none
  | table => some 't'
  | verbose => some 'v'
  | help => some 'h'
  | version => some 'V'

def ofLong? (text : String) : Option Flag := all.find? (·.long == text)

def ofShort? (c : Char) : Option Flag := all.find? (·.short? == some c)

end Flag

namespace Options

def once (given : Bool) (flag : Flag) (o : Options) : Except Halt Options :=
  if given then .error (.usage (.repeatedOption flag.long)) else .ok o

def addFlag (o : Options) (flag : Flag) : Except Halt Options :=
  match flag with
  | .binary => once o.binary flag { o with binary := true }
  | .hex => once o.hex flag { o with hex := true }
  | .table => once o.table flag { o with table := true }
  | .verbose => .ok { o with verbosity := o.verbosity + 1 }
  | .help => .error .help
  | .version => .error .version

def addShort (o : Options) (c : Char) : Except Halt Options :=
  match Flag.ofShort? c with
  | some flag => o.addFlag flag
  | none => .error (.usage (.unknownOption (String.ofList ['-', c])))

def addLong (o : Options) (text : String) : Except Halt Options :=
  match Flag.ofLong? text with
  | some flag => o.addFlag flag
  | none => .error (.usage (.unknownOption text))

def addInput (o : Options) (text : String) : Except Halt Options :=
  if o.input.isSome then .error (.usage (.extraArgument text))
  else if text.isEmpty then .error (.usage .emptyArgument)
  else .ok { o with input := some text }

/-- Short flags may share one dash; a dash alone is the name of a file. -/
def addArgument (o : Options) (text : String) : Except Halt Options :=
  match text.toList with
  | '-' :: '-' :: _ => o.addLong text
  | '-' :: c :: cs => (c :: cs).foldlM addShort o
  | _ => o.addInput text

/-- Arguments are taken from the left, and the first that asks for help, for the version or for
something wrong decides. After `--` no argument is a flag. -/
def add (o : Options) : List String → Except Halt Options
  | [] => .ok o
  | text :: more =>
      if text = "--" then more.foldlM addInput o
      else do
        let o ← o.addArgument text
        o.add more

def ofArguments (arguments : List String) : Except Halt Options := default.add arguments

end Options

end Opstream.Command
