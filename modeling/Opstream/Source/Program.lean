import Opstream.Buffer
import Opstream.Instruction
import Opstream.Source.Statement
import Opstream.Text.Lines

namespace Opstream.Source

inductive Cause
  | unreadable (text : String)
  | unknownOperation (name : String)
  | arity (name : String) (expected given : Nat)
  | operandOverflow (name digits : String) (width : Nat)
  | encoding (fault : Fault)
  deriving DecidableEq

def Cause.message : Cause → String
  | unreadable text => s!"cannot parse `{text}`"
  | unknownOperation name => s!"{name} is not an operation"
  | arity name expected given => s!"{name} requires {expected} arguments but was given {given}"
  | operandOverflow name digits width =>
      s!"operand {digits} of {name} does not fit in {width} bytes"
  | encoding fault => fault.message

/-- Lines count from 1. -/
structure Error where
  line : Nat
  cause : Cause
  deriving DecidableEq

def Error.message (e : Error) : String := s!"Error on line {e.line}: {e.cause.message}."

open Log (Traced)

namespace Statement

def value (name : String) (width : Nat) (digits : String) : Except Cause Operand :=
  let n := Decimal.value digits.toList
  if n < UInt64.size then .ok (UInt64.ofNat n)
  else .error (.operandOverflow name digits width)

def values (s : Statement) (opcode : Opcode) : Except Cause (List Operand) :=
  (s.operands.zip opcode.widths).mapM fun (digits, width) => value opcode.name width digits

/-- The name is checked first, then the number of operands, then each operand from the left. -/
def instruction (s : Statement) : Except Cause Instruction :=
  match Opcode.ofName? s.name with
  | none => .error (.unknownOperation s.name)
  | some opcode =>
      if s.operands.length ≠ opcode.arity then
        .error (.arity opcode.name opcode.arity s.operands.length)
      else
        (s.values opcode).map (⟨opcode, ·⟩)

/-- The cause behind a failed encoding. An operand that does not fit is shown as it was written. -/
def refusal (s : Statement) (i : Instruction) (fault : Fault) : Cause :=
  match fault with
  | .operandOverflow _ v _ =>
      let index := (i.operands.findIdx? (· == v)).getD 0
      .operandOverflow i.opcode.name (s.operands.getD index "") (i.opcode.widths.getD index 0)
  | fault => .encoding fault

def check (s : Statement) : Traced Cause Instruction := do
  let i ← Traced.ofExcept s.instruction
  let _ ← i.encodeReported.mapError (s.refusal i)
  pure i

end Statement

def readLine (line : List Char) : Traced Cause (Option Instruction) :=
  match Statement.ofLine? line with
  | none => Traced.ofExcept (.error (.unreadable (String.ofList (Text.trim line))))
  | some none => pure none
  | some (some s) => some <$> s.check

def readLines (number : Nat) : List (List Char) → Traced Error (List (Nat × Instruction))
  | [] => pure []
  | line :: lines => do
      let found ← (readLine line).mapError (⟨number, ·⟩)
      let more ← readLines (number + 1) lines
      pure (match found with
        | none => more
        | some i => (number, i) :: more)

def parseReported (text : String) : Traced Error (List (Nat × Instruction)) :=
  readLines 1 (Text.lines text.toList)

def appendAll (b : Buffer) : List (Nat × Instruction) → Traced Error Buffer
  | [] => pure b
  | (number, i) :: more => do
      let (_, b) ← (b.pushReported i).mapError fun fault => ⟨number, .encoding fault⟩
      appendAll b more

/-- Reads every line before the first instruction is stored. -/
def assembleReported (text : String) : Traced Error Buffer := do
  let program ← parseReported text
  appendAll Buffer.empty program

def parse (text : String) : Except Error (List Instruction) :=
  (parseReported text).result.map (·.map Prod.snd)

def assemble (text : String) : Except Error Buffer := (assembleReported text).result

end Opstream.Source
