import Opstream.Command.Run

namespace Opstream.Command

def ioReason : IO.Error → String
  | .noFileOrDirectory _ code details => s!"{details} (os error {code})"
  | .inappropriateType _ code details => s!"{details} (os error {code})"
  | .permissionDenied _ code details => s!"{details} (os error {code})"
  | error => toString error

def readInput (path : Option String) : IO (Except String (List UInt8)) := do
  try
    let bytes ← match path with
      | some path => IO.FS.readBinFile path
      | none => (← IO.getStdin).readBinToEnd
    return .ok bytes.toList
  catch error => return .error (ioReason error)

end Opstream.Command

open Opstream.Command in
def main (arguments : List String) : IO UInt32 := do
  let input ← match Options.ofArguments arguments with
    | .ok o => readInput o.input
    | .error _ => pure (.ok [])
  let outcome := run (← IO.getEnv "RUST_LOG") (fun _ => input) arguments
  IO.print outcome.stdout
  IO.eprint outcome.stderr
  return UInt32.ofNat outcome.exit
