import Opstream.Command.Options
import Opstream.Command.Session
import Opstream.Log.Filter

namespace Opstream.Command

open Log (Filter Limit Traced)

def helpText : String :=
  "Bytecode instruction encoding, decoding, and disassembly for a stack virtual machine

Usage: opcodec [OPTIONS] [INPUT]

Arguments:
  [INPUT]  Input file. Reads standard input when absent

Options:
  -b, --binary      Treat the input as raw bytecode instead of assembly text
      --hex         Print the encoded bytes as hex before the listing
  -t, --table       Print the listing as a table
  -v, --verbose...  Raise the log level; repeat for more detail. `RUST_LOG` takes precedence
  -h, --help        Print help
  -V, --version     Print version
"

def versionText : String := "opcodec 0.1.0\n"

structure Outcome where
  exit : Nat
  stdout : String
  stderr : String
  deriving DecidableEq

/-- A failure to print these texts is passed over. -/
def Halt.outcome (device : Device) : Halt → Outcome
  | help => ⟨0, device.taken "" helpText, ""⟩
  | version => ⟨0, device.taken "" versionText, ""⟩
  | usage error => ⟨2, "", s!"error: {error.message}\n\nUsage: opcodec [OPTIONS] [INPUT]\n"⟩

def defaultLimit : Nat → Limit
  | 0 => some .warn
  | 1 => some .info
  | 2 => some .debug
  | _ => some .trace

def load (o : Options) (input : List UInt8) : Traced Failure Buffer :=
  if o.binary then pure (Buffer.ofBytes input)
  else do
    let text ← Traced.ofExcept ((Text.Utf8.decode input).mapError Failure.notText)
    (Source.assembleReported (String.ofList text)).mapError Failure.source

def listing (o : Options) (b : Buffer) : Traced Failure String :=
  if o.table then ⟨.ok (Listing.table b.bytes).render, Listing.tableEvents b.bytes⟩
  else ⟨.ok b.listing, Listing.events b.bytes⟩

def writePage (device : Device) (o : Options) (b : Buffer) : Session Unit := do
  if o.hex then
    Session.write device (b.hex ++ "\n")
  let text ← Session.ofTraced (listing o b)
  Session.write device text

/-- Nothing is written before the stream is complete. -/
def execute (device : Device) (o : Options) (input : List UInt8) : Session Unit := do
  let b ← Session.ofTraced (load o input)
  Session.report [.loaded b.size]
  writePage device o b

def logLines (filter : Filter) (events : List Log.Event) : String :=
  String.join ((events.filter filter.passes).map (·.line ++ "\n"))

def outcome (filter : Filter) (result : Except Failure Unit) (journal : Journal) : Outcome :=
  let log := logLines filter journal.events
  match result with
  | .ok () => ⟨0, journal.written, log⟩
  | .error failure => ⟨1, journal.written, log ++ failure.report⟩

/-- The filter of a run. The text of a specification goes before the number of verbose flags. -/
def filter (o : Options) (logSpec : Option String) : Filter × List Log.Warning :=
  let base := Filter.ofLimit (defaultLimit o.verbosity)
  match logSpec with
  | none => (base, [])
  | some spec => base.refine spec

def finish (logSpec : Option String) (o : Options) (session : Session Unit) : Outcome :=
  let (filter, warnings) := filter o logSpec
  let (result, journal) := session.run Journal.empty
  let finished := outcome filter result journal
  { finished with
    stderr := String.join (warnings.map (·.line ++ "\n")) ++ finished.stderr }

def runOn (device : Device) (logSpec : Option String)
    (read : Option String → Except String (List UInt8)) (arguments : List String) : Outcome :=
  match Options.ofArguments arguments with
  | .error halt => halt.outcome device
  | .ok o => finish logSpec o do
      let input ← MonadExcept.ofExcept ((read o.input).mapError (Failure.input o.input))
      execute device o input

def run (logSpec : Option String) (read : Option String → Except String (List UInt8))
    (arguments : List String) : Outcome :=
  runOn .steady logSpec read arguments

end Opstream.Command
