import Opstream.Listing
import Opstream.Log

namespace Opstream

/-- A stream that grows at its end only. -/
structure Buffer where
  bytes : List UInt8
  deriving DecidableEq

namespace Buffer

def empty : Buffer := ⟨[]⟩

/-- Bytes from elsewhere are taken as they are; walk them to find faults. -/
def ofBytes (bytes : List UInt8) : Buffer := ⟨bytes⟩

def size (b : Buffer) : Nat := b.bytes.length

def isEmpty (b : Buffer) : Bool := b.bytes.isEmpty

def append (b other : Buffer) : Buffer := ⟨b.bytes ++ other.bytes⟩

def push (b : Buffer) (i : Instruction) : Except Fault (Nat × Buffer) := do
  let bytes ← i.encode
  pure (b.size, ⟨b.bytes ++ bytes⟩)

def emit (b : Buffer) (opcode : Opcode) (operands : List Operand) : Except Fault (Nat × Buffer) :=
  b.push ⟨opcode, operands⟩

def hex (b : Buffer) : String := Hex.text b.bytes

def listing (b : Buffer) : String := Listing.text b.bytes

def pushReported (b : Buffer) (i : Instruction) : Log.Traced Fault (Nat × Buffer) := do
  let bytes ← i.encodeReported
  pure (b.size, ⟨b.bytes ++ bytes⟩)

theorem result_pushReported (b : Buffer) (i : Instruction) :
    (b.pushReported i).result = b.push i := by
  simp [pushReported, push, Log.Traced.result_bind]
  rfl

end Buffer

end Opstream
